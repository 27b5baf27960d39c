import CppPrivate.Http.MultipartParser
import CppPrivate.Http.StringUtils

/-! The callbacks of the multipart parser. They gather the texts of a part, and put the part into
the form when its data ends. -/
namespace CppPrivate.Http
open Url (cStr)

inductive multipart_parser_state_e where
  | MP_START
  | MP_PART_DATA_BEGIN
  | MP_HEADER_FIELD
  | MP_HEADER_VALUE
  | MP_HEADERS_COMPLETE
  | MP_PART_DATA
  | MP_PART_DATA_END
  | MP_BODY_END
deriving DecidableEq

structure Form where
  filename : Bytes
  content : Bytes
  contentType : Bytes
deriving DecidableEq

abbrev MultiPartForm := StdMap Form

structure multipart_parser_userdata where
  mp : MultiPartForm
  state : multipart_parser_state_e
  headerField : Bytes
  headerValue : Bytes
  partData : Bytes
  name : Bytes
  filename : Bytes
  contentType : Bytes

namespace multipart_parser_userdata

def new (mp : MultiPartForm) : multipart_parser_userdata := ⟨mp, .MP_START, [], [], [], [], [], []⟩

/-- One of the parameters of a disposition, between its semicolons. -/
def handle_param (u : multipart_parser_userdata) (str : Bytes) : multipart_parser_userdata :=
  match split (trim str (bytes " ")) 61 with
  | [key, value] =>
    let value := trim_pairs value [34, 34, 39, 39]
    if cStr key = bytes "name" then { u with name := value }
    else if cStr key = bytes "filename" then { u with filename := value }
    else u
  | _ => u

def handle_disposition (u : multipart_parser_userdata) : multipart_parser_userdata :=
  if stricmpEq u.headerField (bytes "Content-Disposition") then
    (split u.headerValue 59).foldl handle_param u
  else u

def handle_type (u : multipart_parser_userdata) : multipart_parser_userdata :=
  if stricmpEq u.headerField (bytes "Content-Type") then { u with contentType := u.headerValue }
  else u

/-- A header without a name or without a value is left where it is. -/
def handle_header (u : multipart_parser_userdata) : multipart_parser_userdata :=
  if u.headerField.length = 0 ∨ u.headerValue.length = 0 then u
  else { u.handle_disposition.handle_type with headerField := [], headerValue := [] }

def handle_data (u : multipart_parser_userdata) : multipart_parser_userdata :=
  { u with
    mp := if u.name.length ≠ 0 then u.mp.insert u.name ⟨u.filename, u.partData, u.contentType⟩
      else u.mp
    name := [], filename := [], partData := [], contentType := [] }

end multipart_parser_userdata

namespace Multipart

def OnHeaderField (u : multipart_parser_userdata) (text : Bytes) : multipart_parser_userdata :=
  let u := u.handle_header
  { u with state := .MP_HEADER_FIELD, headerField := u.headerField ++ text }

def OnHeaderValue (u : multipart_parser_userdata) (text : Bytes) : multipart_parser_userdata :=
  { u with state := .MP_HEADER_VALUE, headerValue := u.headerValue ++ text }

def OnPartData (u : multipart_parser_userdata) (text : Bytes) : multipart_parser_userdata :=
  { u with state := .MP_PART_DATA, partData := u.partData ++ text }

def OnPartDataBegin (u : multipart_parser_userdata) : multipart_parser_userdata :=
  { u with state := .MP_PART_DATA_BEGIN }

def OnHeadersComplete (u : multipart_parser_userdata) : multipart_parser_userdata :=
  { u.handle_header with state := .MP_HEADERS_COMPLETE }

def OnPartDataEnd (u : multipart_parser_userdata) : multipart_parser_userdata :=
  { u with state := .MP_PART_DATA_END }.handle_data

def OnBodyEnd (u : multipart_parser_userdata) : multipart_parser_userdata :=
  { u with state := .MP_BODY_END }

/-- The settings of the parser. -/
def call (u : multipart_parser_userdata) : Callback → multipart_parser_userdata
  | .header_field text => OnHeaderField u text
  | .header_value text => OnHeaderValue u text
  | .part_data text => OnPartData u text
  | .part_data_begin => OnPartDataBegin u
  | .headers_complete => OnHeadersComplete u
  | .part_data_end => OnPartDataEnd u
  | .body_end => OnBodyEnd u

/-- The return code, and the form that the call leaves. -/
def ParseMultipart (str : Bytes) (mp : MultiPartForm) (boundary : Bytes) : Int × MultiPartForm :=
  let parser := MultipartParser.init (bytes "--" ++ cStr boundary)
  let (nparse, _, calls) := parser.execute str
  (if nparse = str.length then 0 else -1, (calls.foldl call (.new mp)).mp)

end Multipart

end CppPrivate.Http
