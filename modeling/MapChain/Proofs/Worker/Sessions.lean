import MapChain.Json.Equality
import MapChain.Worker.Session

/-!
# Which line answers a request

A session numbers its requests and reads one line for each. The invariant of a run is that the
number of requests made, the number of the next one and the number of lines read go together,
whatever the requests came to. So the line that answers a request is told from its place among the
lines that the worker prints, and a reply with another number is a failure.

## Layers

- **Replies**: `IsReply` describes the lines that reply to a number, and `readReply_eq_ok_iff` reads
  one.
- **One request**: `Follows` is the invariant, and `Follows.request` is the step.
- **A run**: `Follows.after` is the run, and `request_attributed` the main theorem.
-/

namespace MapChain

/-! ## Replies -/

/-- A line is a reply to the request of a number, with the rest of what it says: it holds an object
that reports no error and carries the number. -/
def IsReply (line : String) (number : Nat) (rest : Fields) : Prop :=
  ∃ members : Fields, Json.ofText? line = some (.object members) ∧ members.get? "error" = none ∧
    (∃ n, members.get? "id" = some (.number n) ∧ n.toNat? = some number) ∧
    rest = members.erase "id"

/-- A line is a reply to one number only. -/
theorem IsReply.number_eq {line : String} {m n : Nat} {rest rest' : Fields}
    (h : IsReply line m rest) (h' : IsReply line n rest') : m = n := by
  obtain ⟨members, hline, -, ⟨x, hx, hm⟩, -⟩ := h
  obtain ⟨members', hline', -, ⟨y, hy, hn⟩, -⟩ := h'
  rw [hline, Option.some.injEq, Json.object.injEq] at hline'
  subst hline'
  rw [hx, Option.some.injEq, Json.number.injEq] at hy
  subst hy
  exact Option.some.inj (hm.symm.trans hn)

theorem isId_iff {id : UInt64} {found : Option Json} :
    isId id found = true ↔ ∃ n, found = some (.number n) ∧ n.toNat? = some id.toNat := by
  rcases found with _ | v
  · simp [isId]
  · cases v <;> simp [isId]

theorem fieldsOfLine_eq_ok_iff {line : String} {members : Fields} :
    fieldsOfLine line = .ok members ↔ Json.ofText? line = some (.object members) := by
  rw [fieldsOfLine]
  cases Json.ofText? line with
  | none => simp
  | some v => cases v <;> simp

theorem openReply_eq_ok_iff {id : UInt64} {reply rest : Fields} :
    openReply id reply = .ok rest ↔
      reply.get? "error" = none ∧
        (∃ n, reply.get? "id" = some (.number n) ∧ n.toNat? = some id.toNat) ∧
        rest = reply.erase "id" := by
  rw [openReply, ← isId_iff]
  -- An error that is reported counts whatever the number is
  cases reply.get? "error" with
  | none => by_cases hid : isId id (reply.get? "id") = true <;> simp [hid, eq_comm]
  | some fault => cases fault <;> simp

/-- A reply is read when the line is one to the request's number and the rest has the shape asked
for. -/
theorem readReply_eq_ok_iff {α : Type} {id : UInt64} {read : Json.ShapeReader α} {line : String}
    {a : α} :
    readReply id read line = .ok a ↔
      ∃ rest, IsReply line id.toNat rest ∧ read (.object rest) = .ok a := by
  have hread : readReply id read line = .ok a ↔ ∃ members, fieldsOfLine line = .ok members ∧
      ∃ rest, openReply id members = .ok rest ∧ read (.object rest) = .ok a := by
    rw [readReply]
    cases fieldsOfLine line with
    | error e => simp
    | ok members =>
      cases hopen : openReply id members with
      | error e => simp [hopen]
      | ok rest => cases hrest : read (.object rest) <;> simp [hopen, hrest]
  simp only [hread, fieldsOfLine_eq_ok_iff, openReply_eq_ok_iff, IsReply]
  constructor
  · rintro ⟨members, hline, rest, ⟨herror, hid, hrest⟩, ha⟩
    exact ⟨rest, ⟨members, hline, herror, hid, hrest⟩, ha⟩
  · rintro ⟨rest, ⟨members, hline, herror, hid, hrest⟩, ha⟩
    exact ⟨members, hline, rest, ⟨herror, hid, hrest⟩, ha⟩

/-! ## Lines of a process -/

namespace WorkerProcess

theorem readLine_of_nil {p : WorkerProcess} (h : p.pending = []) :
    p.readLine =
      (.error (.processFailed p.status.value p.stderrText), { p with stderr := .empty }) := by
  obtain ⟨pending, appetite, status, stderr, received⟩ := p
  cases h
  rfl

theorem readLine_of_cons {p : WorkerProcess} {bytes : ByteArray} {pending : List ByteArray}
    (h : p.pending = bytes :: pending) {line : String}
    (hline : String.fromUTF8? bytes = some line) :
    p.readLine = (.ok line, { p with pending }) := by
  simp only [readLine, h, hline]

end WorkerProcess

/-! ## Requests -/

/-- A request: what is sent, and what its reply is read as. -/
structure WorkerRequest where
  payload : Json
  Reply : Type
  read : Json.ShapeReader Reply

namespace WorkerRequest

/-- It can be sent: it has members, or says nothing. -/
def Serializes (q : WorkerRequest) : Prop :=
  q.payload = .null ∨ ∃ members, q.payload = .object members

/-- The line that is sent for the request of a number. -/
def line (q : WorkerRequest) (number : Nat) : String :=
  (Json.object (("id", .number (.ofUInt64 (.ofNat number))) :: q.payload.fields?.getD [])).compact

theorem Serializes.envelope? {q : WorkerRequest} (h : q.Serializes) (number : Nat) :
    (MapChain.envelope? (.ofNat number) q.payload).map Json.compact = some (q.line number) := by
  rw [line]
  rcases h with h | ⟨members, h⟩ <;> rw [h] <;> rfl

end WorkerRequest

namespace WorkerSession

/-- The session after requests, whatever they came to. -/
def after (s : WorkerSession) (requests : List WorkerRequest) : WorkerSession :=
  requests.foldl (fun s q => (s.request q.payload q.read).2) s

/-- The lines that are not read yet, where they are text. -/
def unread (s : WorkerSession) : List (Option String) := s.process.pending.map String.fromUTF8?

/-! ## One request -/

/-- A session of a recording has made so many requests, and has read as many of the lines. The
process still takes `left` requests. -/
structure Follows (r : Recording) (lines : List String) (made left : Nat) (s : WorkerSession) :
    Prop where
  nextId : s.nextId = .ofNat (made + 1)
  unread : s.unread = (lines.drop made).map some
  appetite : s.process.appetite = left
  status : s.process.status = r.status

/-- What becomes of the request that comes after `made` others. -/
structure Attributed (r : Recording) (lines : List String) (made : Nat) (q : WorkerRequest)
    (s : WorkerSession) : Prop where
  /-- It is sent with its own number. -/
  sent : (s.request q.payload q.read).2.sent = s.sent ++ [q.line (made + 1)]
  /-- The line of its own place is read, if the output goes so far, and no other. -/
  unread : s.unread = (lines.drop made).map some
  unread_after : (s.request q.payload q.read).2.unread = (lines.drop (made + 1)).map some
  ended : lines[made]? = none → ∃ stderr,
    (s.request q.payload q.read).1 = .error (.processFailed r.status.value stderr)
  /-- It succeeds with what this line says in reply to its number. -/
  answered : ∀ a, (s.request q.payload q.read).1 = .ok a ↔ ∃ line rest, lines[made]? = some line ∧
    IsReply line ((made + 1) % UInt64.size) rest ∧ q.read (.object rest) = .ok a

/-- A reply to another request is no success. -/
theorem Attributed.not_ok {r : Recording} {lines : List String} {made : Nat} {q : WorkerRequest}
    {s : WorkerSession} (h : s.Attributed r lines made q) {line : String} {number : Nat}
    {rest : Fields} (hline : lines[made]? = some line) (hreply : IsReply line number rest)
    (hne : number ≠ (made + 1) % UInt64.size) (a : q.Reply) :
    (s.request q.payload q.read).1 ≠ .ok a := by
  intro ha
  obtain ⟨line', rest', hline', hreply', -⟩ := (h.answered a).mp ha
  rw [hline, Option.some.injEq] at hline'
  subst hline'
  exact hne (hreply.number_eq hreply')

variable {s : WorkerSession} {q : WorkerRequest} {number left : Nat}

/-- The process once it has taken a request that it is sent. -/
def taken (s : WorkerSession) (q : WorkerRequest) (number : Nat) : WorkerProcess :=
  { s.process with
    appetite := s.process.appetite - 1
    received := s.process.received ++ [q.line number] }

theorem write?_of_appetite (hq : q.Serializes) (number : Nat)
    (hleft : s.process.appetite = left + 1) :
    ∃ message, envelope? (.ofNat number) q.payload = some message ∧
      s.process.write? message.compact = some (s.taken q number) := by
  obtain ⟨message, hmessage, hline⟩ := Option.map_eq_some_iff.mp (hq.envelope? number)
  refine ⟨message, hmessage, ?_⟩
  rw [WorkerProcess.write?, hleft, hline, taken, hleft]
  rfl

/-- A request that finds the output at its end fails. -/
theorem request_of_ended (hq : q.Serializes) (hid : s.nextId = .ofNat number)
    (hleft : s.process.appetite = left + 1) (hpending : s.process.pending = []) :
    s.request q.payload q.read =
      (.error (.processFailed s.process.status.value s.process.stderrText),
        { s with
          nextId := s.nextId + 1
          process := { s.taken q number with stderr := .empty } }) := by
  obtain ⟨message, hmessage, hwrite⟩ := write?_of_appetite hq number hleft
  have hread := (s.taken q number).readLine_of_nil hpending
  rw [request, hid, hmessage]
  simp only [hwrite, hread]
  rfl

/-- A request that finds a line reads it. -/
theorem request_of_line (hq : q.Serializes) (hid : s.nextId = .ofNat number)
    (hleft : s.process.appetite = left + 1) {bytes : ByteArray} {pending : List ByteArray}
    (hpending : s.process.pending = bytes :: pending) {line : String}
    (hline : String.fromUTF8? bytes = some line) :
    s.request q.payload q.read =
      (readReply s.nextId q.read line,
        { s with nextId := s.nextId + 1, process := { s.taken q number with pending } }) := by
  obtain ⟨message, hmessage, hwrite⟩ := write?_of_appetite hq number hleft
  have hread := (s.taken q number).readLine_of_cons hpending hline
  rw [request, hid, hmessage]
  simp only [hwrite, hread]

/-- A request reads the line of its place and leaves the session with one request more. -/
theorem Follows.request_eq {r : Recording} {lines : List String} {made : Nat}
    (h : s.Follows r lines made (left + 1)) (hq : q.Serializes) :
    ∃ process : WorkerProcess, s.request q.payload q.read =
        (lines[made]?.elim (.error (.processFailed r.status.value s.process.stderrText))
            (readReply s.nextId q.read),
          { s with nextId := s.nextId + 1, process }) ∧
      process.received = s.process.received ++ [q.line (made + 1)] ∧
      ({ s with nextId := s.nextId + 1, process } : WorkerSession).Follows r lines (made + 1)
        left := by
  -- The number is used up, the request taken and a line read in both cases, if there is one
  have hnext : s.nextId + 1 = .ofNat (made + 1 + 1) := by
    rw [h.nextId, UInt64.ofNat_add (made + 1) 1]
    rfl
  have hleft : s.process.appetite - 1 = left := by rw [h.appetite, Nat.add_sub_cancel]
  have hunread := h.unread
  rw [WorkerSession.unread] at hunread
  rcases Nat.lt_or_ge made lines.length with hlt | hge
  · rw [List.drop_eq_getElem_cons hlt, List.map_cons, List.map_eq_cons_iff] at hunread
    obtain ⟨bytes, pending, hpending, hline, hrest⟩ := hunread
    refine ⟨{ s.taken q (made + 1) with pending }, ?_, rfl, hnext, hrest, hleft, h.status⟩
    rw [request_of_line hq h.nextId h.appetite hpending hline, List.getElem?_eq_getElem hlt]
    rfl
  · -- The output has ended, and stays at its end
    rw [List.drop_eq_nil_of_le hge, List.map_nil, List.map_eq_nil_iff] at hunread
    have hrest : s.process.pending.map String.fromUTF8? = (lines.drop (made + 1)).map some := by
      rw [hunread, List.drop_eq_nil_of_le (Nat.le_succ_of_le hge)]
      rfl
    refine ⟨{ s.taken q (made + 1) with stderr := .empty }, ?_, rfl, hnext, hrest, hleft,
      h.status⟩
    rw [request_of_ended hq h.nextId h.appetite hunread, List.getElem?_eq_none hge, h.status]
    rfl

theorem Follows.attributed {r : Recording} {lines : List String} {made : Nat}
    (h : s.Follows r lines made (left + 1)) (hq : q.Serializes) : s.Attributed r lines made q := by
  obtain ⟨process, hrequest, hreceived, hfollows⟩ := h.request_eq hq
  have hnumber : s.nextId.toNat = (made + 1) % UInt64.size := by
    rw [h.nextId]
    rfl
  refine ⟨?_, h.unread, ?_, fun hline => ⟨s.process.stderrText, ?_⟩, fun a => ?_⟩
  · rw [hrequest]
    exact hreceived
  · rw [hrequest]
    exact hfollows.unread
  · rw [hrequest, hline]
    rfl
  · rw [hrequest]
    cases lines[made]? with
    | none => simp
    | some line => simp [readReply_eq_ok_iff, hnumber]

theorem Follows.request {r : Recording} {lines : List String} {made : Nat}
    (h : s.Follows r lines made (left + 1)) (hq : q.Serializes) :
    (s.request q.payload q.read).2.Follows r lines (made + 1) left := by
  obtain ⟨process, hrequest, -, hfollows⟩ := h.request_eq hq
  rw [hrequest]
  exact hfollows

/-! ## A run -/

theorem Follows.after {r : Recording} {lines : List String} {made : Nat}
    {requests : List WorkerRequest} (h : s.Follows r lines made (requests.length + left))
    (hq : ∀ q ∈ requests, q.Serializes) :
    (s.after requests).Follows r lines (made + requests.length) left := by
  -- The first request makes one more, and the others follow from the session it leaves
  induction requests generalizing s made with
  | nil =>
    rw [List.length_nil, Nat.zero_add] at h
    exact h
  | cons q requests ih =>
    obtain ⟨hfirst, hrest⟩ := List.forall_mem_cons.mp hq
    have hone : s.Follows r lines made (requests.length + left + 1) := by
      rwa [List.length_cons, Nat.add_right_comm] at h
    have hall := ih (hone.request hfirst) hrest
    rwa [List.length_cons, Nat.add_comm requests.length, ← Nat.add_assoc]

/-- A session begins behind the first line, with no request made. -/
theorem follows_of_spawn {r : Recording} {s : WorkerSession} {greeting : String}
    {lines : List String} (hspawn : spawn (some r) = .ok s)
    (hlines : (WorkerProcess.start r).pending.map String.fromUTF8? = (greeting :: lines).map some) :
    s.Follows r lines 0 (WorkerProcess.start r).appetite := by
  have hstatus : (WorkerProcess.start r).status = r.status := by
    rw [WorkerProcess.start]
    split <;> rfl
  rw [List.map_cons, List.map_eq_cons_iff] at hlines
  obtain ⟨bytes, pending, hpending, hgreeting, hrest⟩ := hlines
  -- The first line is the greeting, whatever it tells
  rw [spawn, begin?, (WorkerProcess.start r).readLine_of_cons hpending hgreeting] at hspawn
  cases hready : readGreeting greeting with
  | error e => simp [hready] at hspawn
  | ok handshake =>
    simp only [hready, Except.ok.injEq] at hspawn
    subst hspawn
    exact ⟨rfl, hrest, rfl, hstatus⟩

/-- **Which line answers a request.** Of the requests to a worker that takes them all and prints
lines of text, each is sent with its own number and reads the line of its own place behind the
greeting. It succeeds when this line is a reply to its number of the shape asked for, and then with
what the reply says; it fails where the output has ended, and where the line is a reply to another
request, whatever became of the requests before it. -/
theorem request_attributed {r : Recording} {s : WorkerSession} {greeting : String}
    {lines : List String} (hspawn : spawn (some r) = .ok s)
    (hlines : (WorkerProcess.start r).pending.map String.fromUTF8? = (greeting :: lines).map some)
    {requests : List WorkerRequest} (hserializes : ∀ q ∈ requests, q.Serializes)
    (hwrites : requests.length ≤ (WorkerProcess.start r).appetite) :
    ∀ done q rest, requests = done ++ q :: rest →
      (s.after done).Attributed r lines done.length q ∧
        ∀ line number members, lines[done.length]? = some line → IsReply line number members →
          number ≠ (done.length + 1) % UInt64.size →
          ∀ a, ((s.after done).request q.payload q.read).1 ≠ .ok a := by
  rintro done q rest rfl
  rw [List.length_append, List.length_cons] at hwrites
  obtain ⟨left, hleft⟩ := Nat.exists_eq_add_of_le hwrites
  have hstart := follows_of_spawn hspawn hlines
  -- What the process still takes is split as the requests are
  have hbefore : s.Follows r lines 0 (done.length + (rest.length + left + 1)) := by
    rwa [hleft, Nat.add_assoc, Nat.add_right_comm rest.length] at hstart
  have hdone := hbefore.after fun q hq => hserializes q (List.mem_append_left _ hq)
  rw [Nat.zero_add] at hdone
  have hattributed := hdone.attributed (hserializes q (by simp))
  exact ⟨hattributed, fun line number members hline hreply hne a =>
    hattributed.not_ok hline hreply hne a⟩

/-- A worker that answers the second request twice, and no other. -/
def eagerRecording : Recording where
  greeting := some "\x7b\"ready\":true\x7d\n".toUTF8
  replies := ["\x7b\"id\":2,\"text\":\"early\"\x7d\n".toUTF8, "\x7b\"id\":2\x7d\n".toUTF8]
  status := .code 3
  stderr := .empty

/-- A request without members whose reply is read as it is. -/
def plainRequest : WorkerRequest := ⟨.null, Fields, Json.Shape.fields⟩

/-- The first request gets the answer to the second and fails, the second gets the other answer, and
the third finds no line. -/
theorem request_eagerRecording :
    ∃ s, spawn (some eagerRecording) = .ok s ∧
      (∀ members, (s.request .null Json.Shape.fields).1 ≠ .ok members) ∧
      ((s.after [plainRequest]).request .null Json.Shape.fields).1 = .ok [] ∧
      ∃ stderr, ((s.after [plainRequest, plainRequest]).request .null Json.Shape.fields).1 =
        .error (.processFailed 3 stderr) := by
  have hready : ∃ s, spawn (some eagerRecording) = .ok s := by
    have hok : (spawn (some eagerRecording)).isOk = true := by decide +kernel
    cases h : spawn (some eagerRecording) with
    | ok s => exact ⟨s, rfl⟩
    | error e => simp [h, Except.isOk, Except.toBool] at hok
  obtain ⟨s, hspawn⟩ := hready
  have hlines : (WorkerProcess.start eagerRecording).pending.map String.fromUTF8? =
      ["\x7b\"ready\":true\x7d", "\x7b\"id\":2,\"text\":\"early\"\x7d", "\x7b\"id\":2\x7d"].map
        some := by
    decide +kernel
  have hserializes : ∀ q ∈ [plainRequest, plainRequest, plainRequest], q.Serializes := by
    simp [plainRequest, WorkerRequest.Serializes]
  have hrun := request_attributed hspawn hlines hserializes (by decide)
  have htwo : (Json.Number.ofUInt64 2).toNat? = some 2 := by decide
  have hearly : IsReply "\x7b\"id\":2,\"text\":\"early\"\x7d" 2 [("text", .string "early")] :=
    ⟨[("id", .number (.ofUInt64 2)), ("text", .string "early")], by decide +kernel, rfl,
      ⟨_, rfl, htwo⟩, rfl⟩
  have hplain : IsReply "\x7b\"id\":2\x7d" 2 [] :=
    ⟨[("id", .number (.ofUInt64 2))], by decide +kernel, rfl, ⟨_, rfl, htwo⟩, rfl⟩
  obtain ⟨-, hfirst⟩ := hrun [] plainRequest _ rfl
  obtain ⟨hsecond, -⟩ := hrun [plainRequest] plainRequest _ rfl
  obtain ⟨hthird, -⟩ := hrun [plainRequest, plainRequest] plainRequest _ rfl
  exact ⟨s, hspawn, hfirst _ 2 _ rfl hearly (by decide),
    (hsecond.answered []).mpr ⟨_, [], rfl, hplain, rfl⟩, hthird.ended rfl⟩

end WorkerSession

end MapChain
