import NyxDb.Server.Frames

/-!
# The client of a shard

A client sends a statement as one frame and collects the frames of the answer until the one that
ends it.  What is sent is the string with its length in two bytes before it; what is collected are
the names and types of the columns, then one frame for each column with its values.
-/

namespace NyxDb.Server

open Replication (encodeStr)

/-- The answer to a statement. -/
structure ExecuteResult where
  schema : Schema
  columns : List (List Value)
  rowsAffected : Nat
  deriving DecidableEq, Repr

def ExecuteResult.rowCount (r : ExecuteResult) : Nat :=
  match r.columns with
  | [] => 0
  | column :: _ => column.length

namespace QuicClient

/-- The bytes `send_frame` gives to the transport. -/
def sendFrame (type : FrameType) (queryId : Nat) (payload : Bytes) : Bytes :=
  streamSend (frameBytes type queryId payload)

end QuicClient

namespace ShardClient

/-- The frame of a statement. -/
def queryFrame (sql : Bytes) : Bytes :=
  QuicClient.sendFrame .query 1 (encodeStr sql)

/-- A value and what is behind it.  A value that is cut is taken for `NULL`, and only the length of
a string has been read then. -/
def decodeColValue (t : TypeId) (bs : Bytes) : Value × Bytes :=
  match readPayload t bs with
  | some (v, rest) => (v, rest)
  | none => (.null, if t = .varchar ∧ 2 ≤ bs.length then bs.drop 2 else bs)

/-- The columns of the first frame of an answer, as far as they can be read. -/
def decodeColumns : Nat → Bytes → Schema
  | 0, _ => []
  | _ + 1, [] => []
  | n + 1, nlen :: bs =>
    if bs.length < nlen.toNat then []
    else
      match bs.drop nlen.toNat with
      | tid :: nullable :: rest =>
        { name := bs.take nlen.toNat, type := TypeId.ofByte tid, nullable := nullable != 0,
          maxLen := 255, default := none } :: decodeColumns n rest
      | _ => []

/-- At most so many values of a column. -/
def decodeValues (t : TypeId) : Nat → Bytes → List Value
  | 0, _ => []
  | _ + 1, [] => []
  | n + 1, isNull :: bs =>
    if isNull != 0 then .null :: decodeValues t n bs
    else (decodeColValue t bs).1 :: decodeValues t n (decodeColValue t bs).2

/-- The answer as far as it has come in. -/
structure Collected where
  result : ExecuteResult
  gotMeta : Bool
  deriving DecidableEq, Repr

def Collected.empty : Collected where
  result := { schema := [], columns := [], rowsAffected := 0 }
  gotMeta := false

def onResultMeta (c : Collected) (p : Bytes) : Collected :=
  if p.length < 2 then c
  else
    let ncols := leNat (p.take 2)
    { result :=
        { c.result with
          schema := decodeColumns ncols (p.drop 2)
          columns := List.replicate ncols [] }
      gotMeta := true }

def onResultCol (c : Collected) (p : Bytes) : Collected :=
  if !c.gotMeta ∨ p.length < 10 then c
  else
    let colIdx := leNat (p.take 2)
    let rowCount := leNat ((p.drop 2).take 8)
    match c.result.schema[colIdx]? with
    | none => c
    | some col =>
      { c with
        result :=
          { c.result with
            columns := c.result.columns.modify colIdx
              (· ++ decodeValues col.type rowCount (p.drop 10)) } }

/-- The message of an error frame. -/
def errorText (p : Bytes) : Bytes :=
  if p.length < 2 then ascii "shard query error"
  else (p.drop 2).take (leNat (p.take 2))

/-- The loop of `execute` over the frames that come in before it has waited too long. -/
def collect (addr : Bytes) : Collected → List (FrameType × Bytes) → Except Bytes ExecuteResult
  | _, [] => .error (ascii "shard_client: timeout waiting for result from " ++ addr)
  | c, (type, p) :: frames =>
    if type = .queryErr then .error (errorText p)
    else if type = .resultMeta then collect addr (onResultMeta c p) frames
    else if type = .resultCol then collect addr (onResultCol c p) frames
    else if type = .resultEnd then
      .ok (if 8 ≤ p.length then { c.result with rowsAffected := leNat (p.take 8) } else c.result)
    else collect addr c frames

/-- What `execute` makes of the frames that come in. -/
def execute (addr : Bytes) (frames : List (FrameType × Bytes)) : Except Bytes ExecuteResult :=
  collect addr .empty frames

end ShardClient

/-! ## Forwarding to the leader -/

namespace ReplicationManager

/-- The frame of a statement that is forwarded. -/
def forwardFrame (sql : Bytes) : Bytes :=
  QuicClient.sendFrame .replForwardWrite 0 (encodeStr sql)

/-- The number of rows of the leader's answer. -/
def forwardWrite (frames : List (FrameType × Bytes)) : Except Bytes Nat :=
  match frames with
  | [] => .error (ascii "forward_write: no response from leader")
  | (type, d) :: _ =>
    if type ≠ .replForwardResp then .error (ascii "forward_write: no response from leader")
    else
      match d with
      | [] => .error (ascii "forward_write: empty response")
      | status :: body =>
        if status = 0 then .ok (if 9 ≤ d.length then leNat (body.take 8) else 0)
        else if d.length < 3 then .error (ascii "forward_write: error response truncated")
        else .error ((d.drop 3).take (leNat (body.take 2)))

end ReplicationManager

end NyxDb.Server
