import Thicket.Py.FileStore

/-!
# The memory fiber

`fibers/py/memory/memory.py`, where the fiber is run with `persist`: a list of messages for each
session. `append` makes the list of a session before it looks for the message, so a request without
one leaves an empty list behind. How values are shown by `str` and lowered by `lower` are arguments.
-/

namespace Thicket.Py.Memory

open Cbor (Bytes)
open Restorable Refinement Result

/-! ### The handlers -/

/-- The bodies of the requests, by capability. -/
inductive Request where
  | append (body : Bytes)
  | materialize (body : Bytes)
  | retrieve (body : Bytes)

/-- `d.setdefault(k, [])`, as it leaves the dictionary. -/
def setDefault (d : Entries) (k : Value) : Except Exc Entries :=
  if k.isHashable then
    if d.any fun e => e.1.eq k then .ok d else .ok (d ++ [(k, .list [])])
  else .error .typeError

/-- `d[k].append(message)` -/
def appendTo (d : Entries) (k message : Value) : Except Exc Entries := do
  match ← (Value.dict d).get k .none with
  | .list items => setItem d k (.list (items ++ [message]))
  | _ => .error .attributeError

def append (data : Entries) (req : Value) : Entries × Outcome (Except Exc Value) :=
  match req.getItem "session" with
  | .error e => (data, .reply (.error e))
  | .ok session =>
      match setDefault data session with
      | .error e => (data, .reply (.error e))
      | .ok data =>
          match req.getItem "message" >>= appendTo data session with
          | .error e => (data, .reply (.error e))
          | .ok data => (data, .save (.ok (.dict [(.str "ok", .bool true)])))

/-- `data.get(req["session"], [])` -/
def messagesOf (data : Entries) (req : Value) : Except Exc Value := do
  (Value.dict data).get (← req.getItem "session") (.list [])

def materialize (data : Entries) (req : Value) : Except Exc Value := do
  return .dict [(.str "messages", ← messagesOf data req)]

section Retrieve

variable (str : Value → String) (lower : String → String)

/-- `(req.get("query") or "").lower()`; of bytes it is bytes, which are in no string. -/
def query (req : Value) : Except Exc (Option String) := do
  match (← req.get (.str "query") .none).orElse (.str "") with
  | .str s => return some (lower s)
  | .bytes _ => return none
  | _ => .error .attributeError

/-- `q in str(m.get("content", "")).lower()` -/
def mentions (q : Option String) (m : Value) : Except Exc Bool := do
  let content ← m.get (.str "content") (.str "")
  match q with
  | some q => return decide (q.toList <:+: (lower (str content)).toList)
  | none => .error .typeError

/-- `[m for m in msgs if q in ...]` -/
def mentioning (q : Option String) : List Value → Except Exc (List Value)
  | [] => .ok []
  | m :: msgs => do
      let keep ← mentions str lower q m
      let found ← mentioning q msgs
      return if keep then m :: found else found

def matching (q : Option String) (msgs : List Value) : Except Exc (List Value) :=
  if q = some "" then .ok msgs else mentioning str lower q msgs

def retrieve (data : Entries) (req : Value) : Except Exc Value := do
  let msgs ← messagesOf data req
  let q ← query lower req
  return .dict [(.str "messages", .list (← matching str lower q (← msgs.iter)))]

def handle : Request → Entries → Entries × Outcome (Except Exc Value)
  | .append body, data => append data (decodeBody body)
  | .materialize body, data => (data, .reply (materialize data (decodeBody body)))
  | .retrieve body, data => (data, .reply (retrieve str lower data (decodeBody body)))

/-- The fiber, started with no file at its path or with one that it wrote before. -/
def program : Program Entries UInt8 Request (Except Exc Value) where
  empty := []
  load := FileStore.load
  dump := FileStore.dump
  handle := handle str lower

end Retrieve

/-! ### What they are for -/

/-- The session of a request. -/
def keyOf (req : Value) : Except Exc Key := do (← req.getItem "session").key

/-- What a request to append asks for. -/
def asked (req : Value) : Except Exc (Key × Value) := do
  let key ← keyOf req
  return (key, ← req.getItem "message")

/-- A message is put at the end of its session's log. -/
def appended (m : Key → List Value) (req : Value) :
    (Key → List Value) × Outcome (Except Exc Value) :=
  match asked req with
  | .ok (key, message) => (push m key message, .save (.ok (.dict [(.str "ok", .bool true)])))
  | .error e => (m, .reply (.error e))

section Spec

variable (str : Value → String) (lower : String → String)

/-- A log of messages for each session. -/
def spec : Request → (Key → List Value) → (Key → List Value) × Outcome (Except Exc Value)
  | .append body, m => appended m (decodeBody body)
  | .materialize body, m => (m, .reply do
      let key ← keyOf (decodeBody body)
      return .dict [(.str "messages", .list (m key))])
  | .retrieve body, m => (m, .reply do
      let key ← keyOf (decodeBody body)
      let q ← query lower (decodeBody body)
      return .dict [(.str "messages", .list (← matching str lower q (m key)))])

end Spec

def parse : Request → Option (Key × Value)
  | .append body => (asked (decodeBody body)).toOption
  | _ => none

/-- The messages under a key. -/
def logs (data : Entries) (key : Key) : List Value :=
  match data.at? key with
  | some (.list items) => items
  | _ => []

/-- The dictionary can be read back, and there is a list for every session. -/
structure Valid (data : Entries) : Prop where
  stored : FileStore.Valid data
  lists : ∀ e ∈ data, ∃ items, e.2 = .list items

variable {data data' : Entries} {req session message : Value} {key : Key}

theorem Valid.at? (h : Valid data) (key : Key) :
    data.at? key = none ∨ data.at? key = some (.list (logs data key)) := by
  rw [logs]
  cases hat : data.at? key with
  | none => exact .inl rfl
  | some v =>
      obtain ⟨e, he, rfl⟩ := Option.map_eq_some_iff.mp hat
      obtain ⟨items, hitems⟩ := h.lists e (List.mem_of_find?_eq_some he)
      rw [hitems]
      exact .inr rfl

theorem Valid.get (h : Valid data) (hkey : session.key = .ok key) :
    (Value.dict data).get session (.list []) = .ok (.list (logs data key)) := by
  have hhash : session.isHashable = true := by
    rw [← isOk_key, hkey]
    rfl
  rw [Value.get, if_pos hhash, Entries.find?_eq_at? h.stored.ofEntry.1.hashable hkey, logs]
  rcases h.at? key with hnone | hsome
  · rw [hnone]
    rfl
  · rw [hsome]
    rfl

theorem valid_nil : Valid [] :=
  ⟨FileStore.valid_nil, fun _ h => absurd h List.not_mem_nil⟩

/-- The list of a session is there once `setdefault` has run, with the messages that it had. -/
theorem Valid.setDefault (h : Valid data) (hkey : session.key = .ok key) :
    ∃ data', setDefault data session = .ok data' ∧ Valid data' ∧ logs data' = logs data ∧
      data'.at? key = some (.list (logs data key)) := by
  obtain ⟨hdistinct, hvalues⟩ := h.stored.ofEntry
  have hhash : session.isHashable = true := by
    rw [← isOk_key, hkey]
    rfl
  rw [Memory.setDefault, if_pos hhash]
  by_cases hany : (data.any fun e => e.1.eq session) = true
  · rw [if_pos hany]
    refine ⟨data, rfl, h, rfl, (h.at? key).resolve_left fun hnone => ?_⟩
    have hsome := (Entries.any_eq_iff hdistinct.hashable hkey).mp hany
    rw [hnone] at hsome
    cases hsome
  · rw [if_neg hany]
    have hset : setItem data session (.list []) = .ok (data ++ [(session, .list [])]) := by
      rw [setItem, if_pos hhash, if_neg hany]
    have hnone : data.at? key = none :=
      Option.not_isSome_iff_eq_none.mp ((Entries.any_eq_iff hdistinct.hashable hkey).not.mp hany)
    have hat := Entries.at?_setItem hdistinct hkey hset
    have hempty : logs data key = [] := by rw [logs, hnone]
    refine ⟨_, rfl, ⟨h.stored.setItem (.list (List.forall_mem_nil _)) hset, ?_⟩, ?_, ?_⟩
    · intro e he
      rcases List.mem_append.mp he with he | he
      · exact h.lists e he
      · rw [List.mem_singleton.mp he]
        exact ⟨[], rfl⟩
    · funext key'
      by_cases hk : key' = key
      · subst hk
        rw [hempty, logs, hat, if_pos rfl]
      · rw [logs, logs, hat, if_neg hk]
    · rw [hat, if_pos rfl, hempty]

theorem Valid.appendTo (h : Valid data) (hkey : session.key = .ok key)
    (hat : data.at? key = some (.list (logs data key))) (hmessage : Writable message) :
    ∃ data', appendTo data session message = .ok data' ∧ Valid data' ∧
      logs data' = push (logs data) key message := by
  obtain ⟨hdistinct, hvalues⟩ := h.stored.ofEntry
  have hhash : session.isHashable = true := by
    rw [← isOk_key, hkey]
    rfl
  obtain ⟨data', hset⟩ := exists_setItem data (.list (logs data key ++ [message])) hhash
  have hitems : ∀ item ∈ logs data key ++ [message], Writable item := by
    intro item hitem
    rcases List.mem_append.mp hitem with hitem | hitem
    · obtain ⟨e, he, hlist⟩ := Option.map_eq_some_iff.mp hat
      have hlogs := hvalues e (List.mem_of_find?_eq_some he)
      rw [hlist] at hlogs
      exact hlogs.ofItem item hitem
    · exact List.mem_singleton.mp hitem ▸ hmessage
  refine ⟨data', ?_, ⟨h.stored.setItem (.list hitems) hset, ?_⟩, ?_⟩
  · rw [Memory.appendTo, Entries.get_dict hdistinct hkey, hat]
    exact hset
  · intro e he
    rcases Entries.mem_of_setItem hset he with hsame | ⟨e', he', hsame⟩
    · exact ⟨_, hsame⟩
    · exact hsame ▸ h.lists e' he'
  · funext key'
    rw [logs, Entries.at?_setItem hdistinct hkey hset, push]
    by_cases hk : key' = key
    · rw [if_pos hk, if_pos hk]
    · rw [if_neg hk, if_neg hk, logs]

/-- What a request to append does to the logs, and that it keeps to valid dictionaries. -/
theorem append_eq (h : Valid data) (hreq : Writable req) :
    Valid (append data req).1 ∧
      appended (logs data) req = (logs (append data req).1, (append data req).2) := by
  rw [append, appended, asked, keyOf]
  cases hsession : req.getItem "session" with
  | error e => exact ⟨h, rfl⟩
  | ok session =>
      rw [ok_bind]
      dsimp only
      cases hhash : session.isHashable with
      | false =>
          have hkey : session.key = .error .typeError := by
            cases session <;> first | rfl | cases hhash
          rw [hkey, setDefault, hhash]
          exact ⟨h, rfl⟩
      | true =>
          obtain ⟨key, hkey⟩ := Entries.exists_key hhash
          obtain ⟨data', hdefault, hvalid, hlogs, hat⟩ := h.setDefault hkey
          rw [hdefault, hkey, ok_bind]
          dsimp only
          cases hmessage : req.getItem "message" with
          | error e => exact ⟨hvalid, congrArg (·, _) hlogs.symm⟩
          | ok message =>
              rw [← hlogs] at hat
              obtain ⟨data'', happend, hvalid', hlogs'⟩ :=
                hvalid.appendTo hkey hat (hreq.getItem hmessage)
              rw [ok_bind, ok_bind, happend]
              rw [hlogs] at hlogs'
              exact ⟨hvalid', congrArg (·, _) hlogs'.symm⟩

theorem messagesOf_eq (h : Valid data) (req : Value) :
    messagesOf data req = do return .list (logs data (← keyOf req)) := by
  rw [messagesOf, keyOf]
  cases hsession : req.getItem "session" with
  | error e => rfl
  | ok session =>
      rw [ok_bind, ok_bind]
      cases hhash : session.isHashable with
      | false =>
          rw [Value.get, hhash]
          cases session <;> first | rfl | cases hhash
      | true =>
          obtain ⟨key, hkey⟩ := Entries.exists_key hhash
          rw [h.get hkey, hkey]
          rfl

section Refinement

variable (str : Value → String) (lower : String → String)

theorem view_handle (i : Request) (h : Valid data) :
    spec str lower i (logs data) =
      (logs (handle str lower i data).1, (handle str lower i data).2) := by
  cases i with
  | append body => exact (append_eq h (Writable.decodeBody body)).2
  | materialize body =>
      simp only [spec, handle, materialize, messagesOf_eq h]
      cases keyOf (decodeBody body) <;> rfl
  | retrieve body =>
      simp only [spec, handle, retrieve, messagesOf_eq h]
      cases keyOf (decodeBody body) <;> rfl

def refinement : Refinement (program str lower) (spec str lower) where
  view := logs
  Valid := Valid
  valid_empty := valid_nil
  load_dump h := FileStore.load_dump h.stored
  valid_handle i h := by
    cases i with
    | append body => exact (append_eq h (Writable.decodeBody body)).1
    | _ => exact h
  view_handle i h := view_handle str lower i h

theorem writes : Writes (spec str lower) parse push where
  put := by
    intro i key message hparse m
    cases i with
    | append body =>
        have hasked := toOption_eq_some.mp hparse
        exact ⟨_, by simp only [spec, appended, hasked]; rfl⟩
    | _ => cases hparse
  keep := by
    intro i hparse m
    cases i with
    | append body =>
        cases hasked : asked (decodeBody body) with
        | ok e => simp [parse, hasked, Except.toOption] at hparse
        | error e => exact ⟨_, by simp only [spec, appended, hasked]; rfl⟩
    | _ => exact ⟨_, rfl⟩

/-! ### Runs -/

/-- What was tried in a run that starts without a file. -/
def tried (events : List (Event Request)) : List (Attempt Key Value) :=
  attempts parse ((program str lower).run .fresh events).1

/-- **A session keeps its messages.** Whatever requests were made before, and whenever the process
was killed or restarted, the messages of a session are those that were appended to it, in order,
without those that an unacknowledged request lost; and a query finds those of them that mention it.
-/
theorem materialize_between (events : List (Event Request)) :
    ∃ log : Key → List Value, Between (tried str lower events) log ∧
      (∀ body key, keyOf (decodeBody body) = .ok key →
        ((program str lower).answer ((program str lower).run .fresh events).2
          (.materialize body)).2 = .replied (.ok (.dict [(.str "messages", .list (log key))]))) ∧
      ∀ body key q, keyOf (decodeBody body) = .ok key → query lower (decodeBody body) = .ok q →
        ((program str lower).answer ((program str lower).run .fresh events).2
          (.retrieve body)).2 = .replied do
            return .dict [(.str "messages", .list (← matching str lower q (log key)))] := by
  obtain ⟨m, hrun, hrepresents⟩ := (represents_fresh (refinement str lower)).run events
  refine ⟨m.current, Run.between (writes str lower) hrun, fun body key hkey => ?_,
    fun body key q hkey hq => ?_⟩
  · apply hrepresents.replied
    simp only [spec, hkey, ok_bind]
    rfl
  · apply hrepresents.replied
    simp only [spec, hkey, hq, ok_bind]

/-! ### A message that is lost in a save -/

/-- `cbor.encode({"session": "s"})`, without the head. -/
def sampleSession : Bytes := [0x67, 0x73, 0x65, 0x73, 0x73, 0x69, 0x6F, 0x6E, 0x61, 0x73]

/-- `cbor.encode({"session": "s", "message": {"content": c}})` -/
def sampleAppend (c : UInt8) : Bytes :=
  0xA2 :: sampleSession ++ [0x67, 0x6D, 0x65, 0x73, 0x73, 0x61, 0x67, 0x65,
    0xA1, 0x67, 0x63, 0x6F, 0x6E, 0x74, 0x65, 0x6E, 0x74, 0x61, c]

/-- `cbor.encode({"session": "s", "query": "c"})` -/
def sampleQuery : Bytes := 0xA2 :: sampleSession ++ [0x65, 0x71, 0x75, 0x65, 0x72, 0x79, 0x61, 0x63]

/-- The second message is cut off in its save. -/
def sampleEvents : List (Event Request) :=
  [.request (.append (sampleAppend 0x61)), .killed (.append (sampleAppend 0x62)) 1,
    .request (.append (sampleAppend 0x63))]

def sampleMessage (content : String) : Value := .dict [(.str "content", .str content)]

def sampleStr : Value → String
  | .str s => s
  | _ => ""

theorem materialize_between_killed :
    ∃ log : Key → List Value, Between (tried sampleStr id sampleEvents) log ∧
      log (.str "s") = [sampleMessage "a", sampleMessage "c"] ∧
      ((program sampleStr id).answer ((program sampleStr id).run .fresh sampleEvents).2
        (.retrieve sampleQuery)).2 =
          .replied (.ok (.dict [(.str "messages", .list [sampleMessage "c"])])) := by
  obtain ⟨log, hbetween, hmaterialize, hretrieve⟩ := materialize_between sampleStr id sampleEvents
  have hmessages : ((program sampleStr id).answer
      ((program sampleStr id).run .fresh sampleEvents).2 (.materialize (0xA1 :: sampleSession))).2 =
        .replied (.ok (.dict [(.str "messages",
          .list [sampleMessage "a", sampleMessage "c"])])) := rfl
  rw [hmaterialize (0xA1 :: sampleSession) (.str "s") rfl] at hmessages
  have hlog : log (.str "s") = [sampleMessage "a", sampleMessage "c"] := by
    simpa using hmessages
  refine ⟨log, hbetween, hlog, ?_⟩
  rw [hretrieve sampleQuery (.str "s") (some "c") rfl rfl, hlog]
  rfl

end Refinement

end Thicket.Py.Memory
