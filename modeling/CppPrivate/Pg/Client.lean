import CppPrivate.Url.Escape

/-! The PostgreSQL client: the connection string it builds and the fields it keeps. The
server's answers are arguments of the calls. -/
namespace CppPrivate.Pg
open Url

def PG_DISABLE_SSL : UInt32 := 0
def PG_ENABLE_SSL : UInt32 := 1

structure CPGClient where
  m_pPGConn : Bool  -- a connection is open
  m_nTimeout : UInt32
  m_sError : Bytes
  m_sHost : Bytes
  m_sPort : Bytes
  m_sUser : Bytes
  m_sPassword : Bytes
  m_sDbName : Bytes
  m_nSSL : UInt32
  m_sUrl : Bytes

namespace CPGClient

/-- Seconds. -/
def m_nDefaultTimeout : UInt32 := 10

def new : CPGClient := ⟨false, m_nDefaultTimeout, [], [], [], [], [], [], 0, []⟩

def setTimeout (c : CPGClient) (nTimeout : UInt32) : CPGClient := { c with m_nTimeout := nTimeout }

/-- The text `getConninfo` returns and keeps in `m_sUrl`. -/
def conninfo (nTimeout : UInt32) (host port username password dbName : Bytes) (SSL : UInt32) :
    Bytes :=
  bytes "postgresql://" ++ host ++ bytes ":" ++ port ++ bytes "/" ++ dbName ++ bytes "?" ++
    bytes "user=" ++ escapeUrl username ++ bytes "&password=" ++ escapeUrl password ++
    bytes "&connect_timeout=" ++ decimal nTimeout.toNat ++
    (if SSL = PG_ENABLE_SSL then bytes "&sslmode=require" else bytes "&sslmode=disable")

def getConninfo (c : CPGClient) (host port username password dbName : Bytes) (SSL : UInt32) :
    CPGClient × Bytes :=
  let m_sUrl := conninfo c.m_nTimeout host port username password dbName SSL
  ({ c with m_sUrl }, m_sUrl)

def close (c : CPGClient) : CPGClient := { c with m_pPGConn := false }

/-- `ok` is whether the server accepts, `error` its message otherwise. -/
def connect (c : CPGClient) (host port username password dbName : Bytes) (SSL : UInt32)
    (ok : Bool) (error : Bytes) : CPGClient × Bool :=
  let c := { c with m_sHost := host, m_sPort := port, m_sUser := username
                    m_sPassword := password, m_sDbName := dbName, m_nSSL := SSL }
  let c := (c.getConninfo host port username password dbName SSL).1
  if ok then ({ c with m_pPGConn := true }, true)
  else ({ c with m_sError := error }.close, false)

@[simp] theorem connect_snd (c : CPGClient) (host port username password dbName : Bytes)
    (SSL : UInt32) (ok : Bool) (error : Bytes) :
    (c.connect host port username password dbName SSL ok error).2 = ok := by
  cases ok <;> rfl

/-- The answer to `ping`, and whether it is an answer at all. -/
inductive PGPing where
  | ok | reject | noResponse | noAttempt | unknown
deriving DecidableEq

def getPGPingMsg : PGPing → Bytes
  | .ok => bytes "PQPING_OK"
  | .reject => bytes "PQPING_REJECT"
  | .noResponse => bytes "PQPING_NO_RESPONSE"
  | .noAttempt => bytes "PQPING_NO_ATTEMPT"
  | .unknown => bytes "UNKNOWN"

/-- The connection string is built anew, with the default SSL mode. -/
def ping (c : CPGClient) (val : PGPing) : CPGClient × Bool :=
  let c := (c.getConninfo c.m_sHost c.m_sPort c.m_sUser c.m_sPassword c.m_sDbName PG_DISABLE_SSL).1
  if val = .ok then (c, true) else ({ c with m_sError := getPGPingMsg val }, false)

end CPGClient
end CppPrivate.Pg
