import Thicket.Py.FileStore

/-!
# The state fiber

`state.set` and `state.get` of `fibers/py/state/state.py`, where the fiber is run with `persist`.
The store is opened by the first request of a process. The requests are those that are let in; a
handler runs without awaiting anything, so one after the other.
-/

namespace Thicket.Py.StateFiber

open Cbor (Bytes)
open Restorable Result

/-! ### The handlers -/

/-- The bodies of the requests, by capability. -/
inductive Request where
  | set (body : Bytes)
  | get (body : Bytes)

/-- `s.data[req["key"]] = req["value"]` -/
def assign (data : Entries) (req : Value) : Except Exc Entries := do
  let value ← req.getItem "value"
  setItem data (← req.getItem "key") value

/-- `set_value` -/
def setValue (data : Entries) (req : Value) : Entries × Outcome (Except Exc Value) :=
  match assign data req with
  | .ok data => (data, .save (.ok (.dict [(.str "ok", .bool true)])))
  | .error e => (data, .reply (.error e))

/-- `get_value` -/
def getValue (data : Entries) (req : Value) : Except Exc Value := do
  let value ← (Value.dict data).get (← req.getItem "key") .none
  return .dict [(.str "value", value)]

def handle : Request → Entries → Entries × Outcome (Except Exc Value)
  | .set body, data => setValue data (decodeBody body)
  | .get body, data => (data, .reply (getValue data (decodeBody body)))

/-- The fiber, started with no file at its path or with one that it wrote before. -/
def program : Program Entries UInt8 Request (Except Exc Value) where
  empty := []
  load := FileStore.load
  dump := FileStore.dump
  handle := handle

/-! ### What they are for -/

/-- The key of a request. -/
def keyOf (req : Value) : Except Exc Key := do (← req.getItem "key").key

/-- What a request to set asks for. -/
def asked (req : Value) : Except Exc (Key × Value) := do
  let value ← req.getItem "value"
  return (← keyOf req, value)

/-- A map from keys to values. -/
def spec : Request → (Key → Option Value) → (Key → Option Value) × Outcome (Except Exc Value)
  | .set body, m =>
      match asked (decodeBody body) with
      | .ok (key, value) => (update m key value, .save (.ok (.dict [(.str "ok", .bool true)])))
      | .error e => (m, .reply (.error e))
  | .get body, m => (m, .reply do
      let key ← keyOf (decodeBody body)
      return .dict [(.str "value", (m key).getD .none)])

def parse : Request → Option (Key × Value)
  | .set body => (asked (decodeBody body)).toOption
  | .get _ => none

variable {data data' : Entries} {req value : Value} {key : Key}

theorem key_error {k : Value} (h : k.isHashable = false) : k.key = .error .typeError := by
  cases k <;> first | rfl | cases h

theorem assign_of_asked (data : Entries) (h : asked req = .ok (key, value)) :
    ∃ k data', req.getItem "value" = .ok value ∧ k.key = .ok key ∧
      setItem data k value = .ok data' ∧ assign data req = .ok data' := by
  simp only [asked, keyOf, bind_eq_ok, pure_eq_ok] at h
  obtain ⟨value', hvalue, key', ⟨k, hk, hkey⟩, heq⟩ := h
  obtain ⟨rfl, rfl⟩ := Prod.mk.inj heq
  have hhash : k.isHashable = true := by
    rw [← isOk_key, hkey]
    rfl
  obtain ⟨data', hset⟩ := exists_setItem data value' hhash
  refine ⟨k, data', hvalue, hkey, hset, ?_⟩
  rw [assign, hvalue, ok_bind, hk, ok_bind, hset]

theorem assign_of_error {e : Exc} (h : asked req = .error e) : assign data req = .error e := by
  rw [asked] at h
  rw [assign]
  cases hvalue : req.getItem "value" with
  | error e' =>
      rw [hvalue] at h
      cases h
      rfl
  | ok value =>
      rw [hvalue, ok_bind, keyOf] at h
      rw [ok_bind]
      cases hk : req.getItem "key" with
      | error e' =>
          rw [hk] at h
          cases h
          rfl
      | ok k =>
          rw [hk, ok_bind] at h
          rw [ok_bind, setItem]
          cases hhash : k.isHashable with
          | true =>
              obtain ⟨key, hkey⟩ := Entries.exists_key hhash
              rw [hkey] at h
              cases h
          | false =>
              rw [key_error hhash] at h
              cases h
              rfl

theorem getValue_eq (h : data.Distinct) (req : Value) : getValue data req = do
    let key ← keyOf req
    return .dict [(.str "value", (data.at? key).getD .none)] := by
  rw [getValue, keyOf]
  cases hk : req.getItem "key" with
  | error e => rfl
  | ok k =>
      rw [ok_bind, ok_bind]
      cases hhash : k.isHashable with
      | true =>
          obtain ⟨key, hkey⟩ := Entries.exists_key hhash
          rw [Entries.get_dict h hkey, hkey]
          rfl
      | false =>
          rw [key_error hhash, Value.get, hhash]
          rfl

theorem view_handle (i : Request) (h : FileStore.Valid data) :
    spec i data.at? = ((handle i data).1.at?, (handle i data).2) := by
  obtain ⟨hdistinct, -⟩ := h.ofEntry
  cases i with
  | get body =>
      simp only [spec, handle, getValue_eq hdistinct]
  | set body =>
      simp only [spec, handle, setValue]
      cases hasked : asked (decodeBody body) with
      | error e => rw [assign_of_error hasked]
      | ok e =>
          obtain ⟨k, data', -, hkey, hset, hassign⟩ := assign_of_asked data hasked
          rw [hassign]
          refine Prod.ext (funext fun key' => ?_) rfl
          exact (Entries.at?_setItem hdistinct hkey hset key').symm

/-- A request's values were decoded, so the dictionary can be read back once it is saved. -/
theorem valid_handle (i : Request) (h : FileStore.Valid data) :
    FileStore.Valid (handle i data).1 := by
  cases i with
  | get body => exact h
  | set body =>
      simp only [handle, setValue]
      cases hasked : asked (decodeBody body) with
      | error e =>
          rw [assign_of_error hasked]
          exact h
      | ok e =>
          obtain ⟨k, data', hvalue, -, hset, hassign⟩ := assign_of_asked data hasked
          rw [hassign]
          exact Writable.setItem h ((Writable.decodeBody body).getItem hvalue) hset

def refinement : Refinement program spec where
  view := Entries.at?
  Valid := FileStore.Valid
  valid_empty := FileStore.valid_nil
  load_dump := FileStore.load_dump
  valid_handle := valid_handle
  view_handle := view_handle

theorem writes : Writes spec parse update where
  put := by
    intro i key value hparse m
    cases i with
    | get body => cases hparse
    | set body =>
        have hasked := toOption_eq_some.mp hparse
        exact ⟨_, by simp only [spec, hasked]; rfl⟩
  keep := by
    intro i hparse m
    cases i with
    | get body => exact ⟨_, rfl⟩
    | set body =>
        cases hasked : asked (decodeBody body) with
        | ok e => simp [parse, hasked, Except.toOption] at hparse
        | error e => exact ⟨_, by simp only [spec, hasked]; rfl⟩

/-! ### Runs -/

/-- What was tried in a run that starts without a file. -/
def tried (events : List (Event Request)) : List (Attempt Key Value) :=
  attempts parse (program.run .fresh events).1

/-- After every run there is a current map of visible values, which requests are answered from. -/
theorem exists_current (events : List (Event Request)) :
    ∃ current : Key → Option Value, (∀ key, Visible (tried events) key (current key)) ∧
      ∀ body key, keyOf (decodeBody body) = .ok key →
        (program.answer (program.run .fresh events).2 (.get body)).2 =
          .replied (.ok (.dict [(.str "value", (current key).getD .none)])) := by
  obtain ⟨m, hrun, hrepresents⟩ := (Refinement.represents_fresh refinement).run events
  refine ⟨m.current, Run.visible writes hrun, fun body key hkey => hrepresents.replied ?_⟩
  simp only [spec, hkey, ok_bind]
  rfl

/-- **Values that were acknowledged are found again.** Whatever requests were made before, and
whenever the process was killed or restarted, a request for a key is answered with the value of the
last request to set it, those apart that came after the last acknowledged one. -/
theorem get_visible (events : List (Event Request)) (body : Bytes) {key : Key}
    (hkey : keyOf (decodeBody body) = .ok key) :
    ∃ found, (program.answer (program.run .fresh events).2 (.get body)).2 =
        .replied (.ok (.dict [(.str "value", found.getD .none)])) ∧
      Visible (tried events) key found := by
  obtain ⟨current, hvisible, hanswer⟩ := exists_current events
  exact ⟨current key, hanswer body key hkey, hvisible key⟩

/-- `cbor.encode({"key": "k", "value": value})` -/
def sampleSet (value : UInt8) : Bytes :=
  [0xA2, 0x63, 0x6B, 0x65, 0x79, 0x61, 0x6B, 0x65, 0x76, 0x61, 0x6C, 0x75, 0x65, value]

/-- `cbor.encode({"key": "k"})` -/
def sampleGet : Bytes := [0xA1, 0x63, 0x6B, 0x65, 0x79, 0x61, 0x6B]

/-- The second request to set is cut off in the middle of its save. -/
def sampleEvents : List (Event Request) :=
  [.request (.set (sampleSet 1)), .killed (.set (sampleSet 2)) 5, .request (.get sampleGet)]

theorem get_visible_after_kill :
    (program.answer (program.run .fresh sampleEvents).2 (.get sampleGet)).2 =
        .replied (.ok (.dict [(.str "value", .int 1)])) ∧
      ∃ found, (program.answer (program.run .fresh sampleEvents).2 (.get sampleGet)).2 =
          .replied (.ok (.dict [(.str "value", found.getD .none)])) ∧
        Visible (tried sampleEvents) (.str "k") found :=
  ⟨rfl, get_visible sampleEvents sampleGet rfl⟩

end Thicket.Py.StateFiber
