import MapChain.Json.Shape
import MapChain.Worker.Process

/-!
# Sessions with a worker

A worker answers requests one at a time, a line of JSON for each. It begins by saying that it is
ready. Requests are numbered from one in the order they are made, and a reply has to carry the
number of the request it follows.

Reading the reply to one request takes one line, whatever is wrong with it, so that an answer to one
request is never taken for the answer to another.
-/

namespace MapChain

/-! ## Lines -/

/-- Reads a line that has to hold an object. -/
def fieldsOfLine (line : String) : Except WorkerError Fields :=
  match Json.ofText? line with
  | some (.object members) => .ok members
  | some _ => .error (.parse ("expected a JSON object: " ++ line))
  | none => .error (.parse (Placeholder.json ++ " (" ++ line ++ ")"))

/-- Reads the line that a worker begins with: it is ready, and tells more about itself. -/
def readGreeting (line : String) : Except WorkerError Fields :=
  match fieldsOfLine line with
  | .error e => .error e
  | .ok members =>
    match members.get? "ready" with
    | some (.bool true) => .ok (members.erase "ready")
    | _ => .error (.protocol ("unexpected node ready response: " ++ line))

/-! ## Requests and replies -/

/-- The request with its number before the members of its payload. A payload without members is
fine, but one that is not made of members cannot be sent. -/
def envelope? (id : UInt64) : Json → Option Json
  | .null => some (.object [("id", .number (.ofUInt64 id))])
  | .object members => some (.object (("id", .number (.ofUInt64 id)) :: members))
  | _ => none

/-- Whether a value is the number of a request. -/
def isId (id : UInt64) : Option Json → Bool
  | some (.number n) => n.toNat? == some id.toNat
  | _ => false

/-- What a reply brings besides its number. A failure that it reports counts for more than its
number. -/
def openReply (id : UInt64) (reply : Fields) : Except WorkerError Fields :=
  match reply.get? "error" with
  | some (.string message) => .error (.remote message)
  | some fault => .error (.remote fault.compact)
  | none =>
    let found := reply.get? "id"
    if isId id found then .ok (reply.erase "id")
    else .error <| .protocol <|
      "expected reply id " ++ toString id.toNat ++ ", got " ++ (found.getD .null).compact

/-- Reads the reply to a request as something of a known shape. -/
def readReply {α : Type} (id : UInt64) (read : Json.ShapeReader α) (line : String) :
    Except WorkerError α :=
  match fieldsOfLine line with
  | .error e => .error e
  | .ok members =>
    match openReply id members with
    | .error e => .error e
    | .ok rest =>
      match read (.object rest) with
      | .ok a => .ok a
      | .error fault => .error (.parse (fault.message ++ " (" ++ line ++ ")"))

/-! ## Sessions -/

/-- A worker that is ready. -/
structure WorkerSession where
  process : WorkerProcess
  /-- What the worker told about itself. -/
  handshake : Fields
  /-- The number of the next request. -/
  nextId : UInt64

namespace WorkerSession

/-- Begins a session with a process. -/
def begin? (p : WorkerProcess) : Except WorkerError WorkerSession :=
  match p.readLine with
  | (.error e, _) => .error e
  | (.ok line, p) =>
    match readGreeting line with
    | .error e => .error e
    | .ok handshake => .ok ⟨p, handshake, 1⟩

/-- Starts a worker, of which there is no recording if it cannot be started. -/
def spawn : Option Recording → Except WorkerError WorkerSession
  | none => .error (.spawnFailed Placeholder.system)
  | some r => begin? (.start r)

/-- Makes a request and reads its reply. The number is used up whatever happens. -/
def request {α : Type} (s : WorkerSession) (payload : Json) (read : Json.ShapeReader α) :
    Except WorkerError α × WorkerSession :=
  let next := { s with nextId := s.nextId + 1 }
  match envelope? s.nextId payload with
  -- A payload that cannot be sent leaves the process as it is
  | none => (.error (.protocol ("failed to serialize request: " ++ Placeholder.json)), next)
  | some message =>
    match s.process.write? message.compact with
    | none => (.error (.protocol ("failed to write to node stdin: " ++ Placeholder.system)), next)
    | some p =>
      -- One line is read, whatever it says
      match p.readLine with
      | (.error e, p) => (.error e, { next with process := p })
      | (.ok line, p) => (readReply s.nextId read line, { next with process := p })

/-- A text that the worker told about itself. -/
def told? (s : WorkerSession) (name : String) : Option String :=
  (s.handshake.get? name).bind Json.string?

/-- The requests that the worker has taken. -/
def sent (s : WorkerSession) : List String := s.process.received

end WorkerSession

end MapChain
