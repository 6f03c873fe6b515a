import Thicket.Py.Checkpoint

/-!
# The steps of a decoded checkpoint

The core reads the steps as a list and looks a key up from the front, so of several steps with one
key the first counts. The SDK makes a dictionary of them by assignment, so there the last one
counts. The core also takes an array of numbers for bytes, which the SDK leaves a list. The two
agree on what they both read if and only if neither makes a difference.
-/

namespace Thicket.Py

open Cbor (Bytes)
open Result Serde

/-- `encode_checkpoint` on what `decode_checkpoint` returned. -/
def encodeDecoded (runId : Value) (steps : List (Value × Value)) : Except Exc Bytes :=
  encode (.dict [
    (.str "run_id", runId),
    (.str "steps", .list (steps.map fun (k, v) => .dict [(.str "key", k), (.str "value", v)]))])

/-! ### What is written in a checkpoint -/

/-- A step as the core reads it, apart from how its value is written. -/
structure WrittenStep where
  key : String
  value : Cbor.Value

structure WrittenCheckpoint where
  runId : Cbor.Value
  steps : List WrittenStep

instance : Deserialize Cbor.Value where
  ofCbor v := some v

instance : Deserialize WrittenStep where
  ofCbor v := do
    let fs ← fields v
    return { key := ← fs.required "key", value := ← fs.required "value" }

instance : Deserialize WrittenCheckpoint where
  ofCbor v := do
    let fs ← fields v
    return { runId := ← fs.required "run_id", steps := ← fs.required "steps" }

/-- Bytes are written as a byte string, and the last step of every key has the bytes of the first.
-/
structure WrittenCheckpoint.Plain (written : WrittenCheckpoint) : Prop where
  runId : ∃ bs, written.runId = .bytes bs
  steps : ∀ key last, written.steps.reverse.find? (fun s => s.key == key) = some last →
    ∃ first bs, written.steps.find? (fun s => s.key == key) = some first ∧
      last.value = .bytes bs ∧ ofCbor first.value = some bs

/-- The checkpoint with later duplicates of a key removed. -/
def withoutRepeats (checkpoint : Thicket.Checkpoint) : Thicket.Checkpoint :=
  { checkpoint with steps := OrderedDict.firstOf Step.key checkpoint.steps }

/-- The core's checkpoint and what the SDK decoded mean the same: the same value under every key,
and the same bytes when they are encoded again. -/
structure MeansTheSame (checkpoint : Thicket.Checkpoint) (runId : Value)
    (steps : List (Value × Value)) : Prop where
  replay : ∀ key, lookup steps key = (checkpoint.replay key).map .bytes
  encoded : ∃ bytes, (withoutRepeats checkpoint).toCbor = .ok bytes ∧
    encodeDecoded runId steps = .ok bytes

/-- The core's checkpoint is the written one with its bytes read. -/
structure WrittenCheckpoint.Reads (written : WrittenCheckpoint) (checkpoint : Thicket.Checkpoint) :
    Prop where
  runId : ofCbor written.runId = some checkpoint.runId
  steps : List.Forall₂ (fun w s => w.key = s.key ∧ ofCbor w.value = some s.value)
    written.steps checkpoint.steps

/-! ### What is read of it -/

section Read

variable {item : Cbor.Value} {checkpoint : Thicket.Checkpoint} {step : Step} {fs : Fields}
  {name : String} {v w : Value} {x : Cbor.Value}

/-- The second of two related lists comes from the first. -/
theorem exists_of_forall₂ {α β : Type} {r : α → β → Prop} {as : List α} {bs : List β} {b : β}
    (h : List.Forall₂ r as bs) (hb : b ∈ bs) : ∃ a ∈ as, r a b := by
  induction h with
  | nil => cases hb
  | @cons a b' as bs hab _ ih =>
      rcases List.mem_cons.mp hb with rfl | hb
      · exact ⟨a, List.mem_cons_self, hab⟩
      · obtain ⟨a', ha', hr⟩ := ih hb
        exact ⟨a', List.mem_cons_of_mem _ ha', hr⟩

/-- A structure of two fields is read just when both of them are. -/
theorem two_fields_eq_some {α β γ : Type} [Deserialize α] [Deserialize β] (mk : α → β → γ)
    {name name' : String} {r : γ} :
    (do
      let fs ← fields item
      return mk (← fs.required name) (← fs.required name')) = some r ↔
      ∃ fs x y, fields item = some fs ∧ fs.required name = some x ∧ fs.required name' = some y ∧
        mk x y = r := by
  simp only [Option.bind_eq_bind, Option.bind_eq_some_iff, Option.pure_def, Option.some.injEq]
  constructor
  · intro h
    obtain ⟨fs, hfs, x, hx, y, hy, hr⟩ := h
    exact ⟨fs, x, y, hfs, hx, hy, hr⟩
  · intro h
    obtain ⟨fs, x, y, hfs, hx, hy, hr⟩ := h
    exact ⟨fs, hfs, x, hx, y, hy, hr⟩

theorem ofCbor_step (h : ofCbor item = some step) :
    ∃ written : WrittenStep, ofCbor item = some written ∧ written.key = step.key ∧
      ofCbor written.value = some step.value := by
  obtain ⟨fs, key, value, hfs, hkey, hvalue, rfl⟩ := (two_fields_eq_some Step.mk).mp h
  obtain ⟨valueItem, hget, hbytes⟩ := Fields.required_eq_some.mp hvalue
  have hwritten : fs.required "value" = some valueItem :=
    Fields.required_eq_some.mpr ⟨valueItem, hget, rfl⟩
  refine ⟨{ key, value := valueItem }, ?_, rfl, hbytes⟩
  exact (two_fields_eq_some WrittenStep.mk).mpr ⟨fs, _, _, hfs, hkey, hwritten, rfl⟩

theorem ofCbor_steps {items : List Cbor.Value} {steps : List Step}
    (h : items.mapM ofCbor = some steps) : ∃ written : List WrittenStep,
      items.mapM ofCbor = some written ∧
      List.Forall₂ (fun w s => w.key = s.key ∧ ofCbor w.value = some s.value) written steps := by
  have hpairs := mapM_eq_some.mp h
  clear h
  induction hpairs with
  | nil => exact ⟨[], rfl, .nil⟩
  | cons hstep _ ih =>
      obtain ⟨written, hwritten, hkey, hvalue⟩ := ofCbor_step hstep
      obtain ⟨rest, hrest, hsteps⟩ := ih
      refine ⟨written :: rest, ?_, .cons ⟨hkey, hvalue⟩ hsteps⟩
      exact mapM_eq_some.mpr (.cons hwritten (mapM_eq_some.mp hrest))

theorem ofCbor_checkpoint (h : ofCbor item = some checkpoint) : ∃ written : WrittenCheckpoint,
    ofCbor item = some written ∧ written.Reads checkpoint := by
  obtain ⟨fs, runId, steps, hfs, hrunId, hsteps, rfl⟩ :=
    (two_fields_eq_some Thicket.Checkpoint.mk).mp h
  obtain ⟨runItem, hgetRun, hbytes⟩ := Fields.required_eq_some.mp hrunId
  obtain ⟨stepsItem, hgetSteps, hlist⟩ := Fields.required_eq_some.mp hsteps
  cases stepsItem with
  | array items =>
      obtain ⟨written, hwritten, hreads⟩ := ofCbor_steps hlist
      have hrun : fs.required "run_id" = some runItem :=
        Fields.required_eq_some.mpr ⟨runItem, hgetRun, rfl⟩
      have hall : fs.required "steps" = some written :=
        Fields.required_eq_some.mpr ⟨_, hgetSteps, hwritten⟩
      refine ⟨{ runId := runItem, steps := written }, ?_, ⟨hbytes, hreads⟩⟩
      exact (two_fields_eq_some WrittenCheckpoint.mk).mpr ⟨fs, _, _, hfs, hrun, hall, rfl⟩
  | _ => cases hlist

theorem built_eq_str {s : String} (h : Value.built item = .ok (.str s)) : item = .text s := by
  cases item with
  | array items =>
      obtain ⟨_, -, hv⟩ := bind_eq_ok.mp h
      cases hv
  | map entries =>
      obtain ⟨_, -, hv⟩ := bind_eq_ok.mp h
      cases hv
  | text s =>
      cases h
      rfl
  | _ => cases h

/-- What is found in a dictionary was there, or is built of an entry with that text as its key. -/
theorem exists_of_lookup {es : List (Cbor.Value × Cbor.Value)} {d d' : List (Value × Value)}
    (h : Value.builtEntries d es = .ok d') (hv : lookup d' name = some v) :
    lookup d name = some v ∨ ∃ x, (.text name, x) ∈ es ∧ Value.built x = .ok v := by
  induction es generalizing d with
  | nil =>
      cases h
      exact .inl hv
  | cons e es ih =>
      obtain ⟨key, value⟩ := e
      simp only [Value.builtEntries, bind_eq_ok] at h
      obtain ⟨k, hk, v', hv', d₁, hset, hrest⟩ := h
      rcases ih hrest with hfound | ⟨x, hx, hbuilt⟩
      · rw [lookup_setItem hset] at hfound
        split_ifs at hfound with hname
        · obtain rfl := Option.some.inj hfound
          rw [eq_str_iff.mp hname] at hk
          obtain rfl := built_eq_str hk
          exact .inr ⟨value, List.mem_cons_self, hv'⟩
        · exact .inl hfound
      · exact .inr ⟨x, List.mem_cons_of_mem _ hx, hbuilt⟩

/-- A field that occurs once is what the SDK finds under its name. -/
theorem built_of_getItem (hfields : fields item = some fs) (hbuilt : Value.built item = .ok w)
    (hget : fs.get name = [x]) (hv : w.getItem name = .ok v) : Value.built x = .ok v := by
  cases item with
  | map es =>
      obtain ⟨d, hd, hw⟩ := bind_eq_ok.mp hbuilt
      obtain rfl := pure_eq_ok.mp hw
      rcases exists_of_lookup hd (getItem_dict.mp hv) with hnone | ⟨x', hmem, hx'⟩
      · cases hnone
      · have hin := mem_get_of_mem hfields hmem
        rw [hget, List.mem_singleton] at hin
        rwa [← hin]
  | _ => cases hfields

/-- What the core takes for bytes is built as it is written. -/
theorem built_of_bytes {bs : Bytes} (h : ofCbor item = some bs) :
    Value.built item = .ok (.ofItem item) := by
  apply built_of_keyed
  cases item with
  | bytes bs => exact .bytes bs
  | array items =>
      apply Keyed.array
      intro item hitem
      obtain ⟨b, hb⟩ := exists_of_mapM h hitem
      cases item with
      | uint n => exact .uint n
      | _ => cases hb
  | _ => cases h

/-! ### What is read can be written -/

theorem length_lt_of_bytes {bs : Bytes} (h : ofCbor item = some bs)
    (hitem : (Cbor.encode item).isSome = true) : bs.length < 256 ^ 8 := by
  cases item with
  | bytes bs' =>
      obtain rfl := Option.some.inj h
      exact Cbor.isSome_encode_bytes.mp hitem
  | array items =>
      rw [← (mapM_eq_some.mp h).length_eq]
      exact (Cbor.isSome_encode_array.mp hitem).1
  | _ => cases h

theorem isSome_encode_pair {name name' : String} {y : Cbor.Value}
    (hname : (Cbor.encode (.text name)).isSome = true)
    (hname' : (Cbor.encode (.text name')).isSome = true) (hx : (Cbor.encode x).isSome = true)
    (hy : (Cbor.encode y).isSome = true) :
    (Cbor.encode (.map [(.text name, x), (.text name', y)])).isSome = true := by
  apply Cbor.isSome_encode_map.mpr
  refine ⟨by simp, ?_⟩
  intro e he
  simp only [List.mem_cons, List.not_mem_nil, or_false] at he
  rcases he with rfl | rfl
  · exact ⟨hname, hx⟩
  · exact ⟨hname', hy⟩

theorem isSome_encode_step (h : ofCbor item = some step)
    (hitem : (Cbor.encode item).isSome = true) : (Cbor.encode (toCbor step)).isSome = true := by
  obtain ⟨fs, key, value, hfs, hkey, hvalue, rfl⟩ := (two_fields_eq_some Step.mk).mp h
  obtain ⟨keyItem, hgetKey, hkeyText⟩ := Fields.required_eq_some.mp hkey
  obtain ⟨valueItem, hgetValue, hbytes⟩ := Fields.required_eq_some.mp hvalue
  have hkeyEncodes := isSome_encode_of_get hfs hitem hgetKey
  have hlength := length_lt_of_bytes hbytes (isSome_encode_of_get hfs hitem hgetValue)
  obtain rfl : keyItem = .text key := by
    cases keyItem with
    | text s => rw [Option.some.inj hkeyText]
    | _ => cases hkeyText
  exact isSome_encode_pair (by decide) (by decide) hkeyEncodes
    (Cbor.isSome_encode_bytes.mpr hlength)

/-- A checkpoint that was read can be written, and so can one with fewer steps. -/
theorem isSome_encode_sublist {steps : List Step} (h : ofCbor item = some checkpoint)
    (hitem : (Cbor.encode item).isSome = true) (hsteps : steps.Sublist checkpoint.steps) :
    (Cbor.encode (toCbor { checkpoint with steps })).isSome = true := by
  obtain ⟨fs, runId, all, hfs, hrunId, hall, rfl⟩ :=
    (two_fields_eq_some Thicket.Checkpoint.mk).mp h
  obtain ⟨runItem, hgetRun, hbytes⟩ := Fields.required_eq_some.mp hrunId
  obtain ⟨stepsItem, hgetSteps, hlist⟩ := Fields.required_eq_some.mp hall
  have hrun := length_lt_of_bytes hbytes (isSome_encode_of_get hfs hitem hgetRun)
  have hstepsEncode := isSome_encode_of_get hfs hitem hgetSteps
  have harray : (Cbor.encode (toCbor steps)).isSome = true := by
    cases stepsItem with
    | array items =>
        obtain ⟨hlength, hitems⟩ := Cbor.isSome_encode_array.mp hstepsEncode
        have hpairs := mapM_eq_some.mp hlist
        apply Cbor.isSome_encode_array.mpr
        refine ⟨?_, ?_⟩
        · rw [List.length_map]
          have hle := hsteps.length_le
          rw [hpairs.length_eq] at hlength
          exact lt_of_le_of_lt hle hlength
        · intro x hx
          obtain ⟨s, hs, rfl⟩ := List.mem_map.mp hx
          obtain ⟨i, hi, hread⟩ := exists_of_forall₂ hpairs (hsteps.subset hs)
          exact isSome_encode_step hread (hitems i hi)
    | _ => cases hlist
  exact isSome_encode_pair (by decide) (by decide) (Cbor.isSome_encode_bytes.mpr hrun) harray

end Read

/-! ### The dictionary of steps -/

section Dictionary

def strEntry (e : String × Value) : Value × Value := (.str e.1, e.2)

variable {d : OrderedDict String Value} {written : List WrittenStep}

theorem lookup_strEntries (d : OrderedDict String Value) (key : String) :
    lookup (d.entries.map strEntry) key = d.get? key := by
  rw [OrderedDict.get?]
  induction d.entries with
  | nil => rfl
  | cons e entries ih =>
      rw [List.map_cons, lookup_cons, ih, List.lookup_cons, strEntry, eq_str]
      by_cases hkey : key = e.1
      · simp [hkey]
      · rw [beq_eq_false_iff_ne.mpr hkey]
        simp [Ne.symm hkey]

theorem setItem_strEntries (d : OrderedDict String Value) (key : String) (v : Value) :
    setItem (d.entries.map strEntry) (.str key) v = .ok ((d.put key v).entries.map strEntry) := by
  have hany : ((d.entries.map strEntry).any fun e => e.1.eq (.str key)) =
      decide (key ∈ d.keys) := by
    rw [Bool.eq_iff_iff, List.any_eq_true, decide_eq_true_eq, OrderedDict.keys]
    simp only [List.mem_map, strEntry]
    constructor
    · rintro ⟨_, ⟨e, he, rfl⟩, heq⟩
      rw [eq_str, decide_eq_true_eq] at heq
      exact ⟨e, he, heq⟩
    · rintro ⟨e, he, rfl⟩
      exact ⟨_, ⟨e, he, rfl⟩, by simp⟩
  rw [setItem, if_pos (by rfl), hany, OrderedDict.put]
  by_cases hkey : key ∈ d.keys
  · rw [if_pos (by simpa using hkey), dif_pos hkey, List.map_map, List.map_map]
    congr 1
    apply List.map_congr_left
    intro e _
    simp only [Function.comp_apply, strEntry, OrderedDict.setEntry, eq_str, decide_eq_true_eq]
    split_ifs <;> rfl
  · rw [if_neg (by simpa using hkey), dif_neg hkey, List.map_append]
    rfl

/-- The entry that the SDK makes of a step. -/
def WrittenStep.entry (s : WrittenStep) : String × Value := (s.key, .ofItem s.value)

/-- The SDK assigns the steps one after another. -/
theorem stepsDict_written {items : List Cbor.Value} {steps : List Step} {vs : List Value}
    {entries : List (Value × Value)}
    (hitems : List.Forall₂ (fun i w => ofCbor i = some w) items written)
    (hreads : List.Forall₂ (fun w s => w.key = s.key ∧ ofCbor w.value = some s.value) written steps)
    (hbuilt : Value.builtItems items = .ok vs)
    (hdict : stepsDict (d.entries.map strEntry) vs = .ok entries) :
    entries = ((written.map WrittenStep.entry).foldl (fun d e => d.put e.1 e.2) d).entries.map
      strEntry := by
  induction hitems generalizing d steps vs with
  | nil =>
      cases hbuilt
      cases hdict
      rfl
  | @cons item w items written hitem hrest ih =>
      cases hreads with
      | cons hread hreads =>
          obtain ⟨v, hv, hbuilt⟩ := bind_eq_ok.mp hbuilt
          obtain ⟨vs', hvs, hcons⟩ := bind_eq_ok.mp hbuilt
          obtain rfl := pure_eq_ok.mp hcons
          simp only [stepsDict, bind_eq_ok] at hdict
          obtain ⟨key, hkey, value, hvalue, d', hset, hdict⟩ := hdict
          obtain ⟨fs, k, x, hfs, hk, hx, rfl⟩ := (two_fields_eq_some WrittenStep.mk).mp hitem
          obtain ⟨keyItem, hgetKey, hkeyText⟩ := Fields.required_eq_some.mp hk
          obtain ⟨valueItem, hgetValue, hvalueItem⟩ := Fields.required_eq_some.mp hx
          obtain rfl := Option.some.inj hvalueItem
          have hkeyBuilt := built_of_getItem hfs hv hgetKey hkey
          have hvalueBuilt := built_of_getItem hfs hv hgetValue hvalue
          rw [built_of_bytes hread.2] at hvalueBuilt
          obtain rfl := Except.ok.inj hvalueBuilt
          have hkeyStr : key = .str k := by
            cases keyItem with
            | text s =>
                obtain rfl := Option.some.inj hkeyText
                exact (Except.ok.inj hkeyBuilt).symm
            | _ => cases hkeyText
          subst hkeyStr
          rw [setItem_strEntries] at hset
          obtain rfl := Except.ok.inj hset
          exact ih hreads hvs hdict

end Dictionary

/-! ### The same meaning -/

section Meaning

variable {blob : Bytes} {checkpoint : Thicket.Checkpoint} {runId : Value}
  {steps : List (Value × Value)} {written : WrittenCheckpoint}

/-- What both sides accept was written in one way, and each side's result is a function of that. -/
theorem exists_written (hcore : Thicket.Checkpoint.fromCbor blob = .ok checkpoint)
    (hsdk : decodeCheckpoint blob = .ok (runId, steps)) :
    ∃ (item : Cbor.Value) (written : WrittenCheckpoint), ofCbor item = some checkpoint ∧
      (Cbor.encode item).isSome = true ∧ fromReader blob = some written ∧
      written.Reads checkpoint ∧ runId = .ofItem written.runId ∧
      steps = (OrderedDict.ofList (written.steps.map WrittenStep.entry)).entries.map strEntry := by
  rw [Thicket.Checkpoint.fromCbor, okOr_eq_ok, fromReader, Option.bind_eq_bind,
    Option.bind_eq_some_iff] at hcore
  obtain ⟨⟨item, rest⟩, hread, hitem⟩ := hcore
  simp only [decodeCheckpoint, bind_eq_ok, pure_eq_ok, Prod.mk.injEq] at hsdk
  obtain ⟨d, hdecode, r, hrun, stepsValue, hsteps, vs, hiter, entries, hdict, rfl, rfl⟩ := hsdk
  obtain ⟨item', hread', hbuilt⟩ := decode_eq_ok.mp hdecode
  obtain ⟨rfl, rfl⟩ := Prod.mk.inj (Option.some.inj (hread.symm.trans hread'))
  obtain ⟨written, hwritten, hreads⟩ := ofCbor_checkpoint hitem
  have hfrom : fromReader blob = some written := by
    rw [fromReader, hread]
    exact hwritten
  refine ⟨item, written, hitem, Cbor.isSome_encode_of_decode hread, hfrom, hreads, ?_⟩
  obtain ⟨fs, runItem, writtenSteps, hfs, hrunItem, hwrittenSteps, rfl⟩ :=
    (two_fields_eq_some WrittenCheckpoint.mk).mp hwritten
  obtain ⟨x, hgetRun, hx⟩ := Fields.required_eq_some.mp hrunItem
  obtain rfl := Option.some.inj hx
  obtain ⟨stepsItem, hgetSteps, hlist⟩ := Fields.required_eq_some.mp hwrittenSteps
  have hrunBuilt := built_of_getItem hfs hbuilt hgetRun hrun
  rw [built_of_bytes hreads.runId] at hrunBuilt
  have hstepsBuilt := built_of_getItem hfs hbuilt hgetSteps hsteps
  cases stepsItem with
  | array items =>
      obtain ⟨vs', hvs, hv⟩ := bind_eq_ok.mp hstepsBuilt
      obtain rfl := pure_eq_ok.mp hv
      obtain rfl := Except.ok.inj hiter
      refine ⟨(Except.ok.inj hrunBuilt).symm, ?_⟩
      have hempty : ([] : List (Value × Value)) = OrderedDict.empty.entries.map strEntry := rfl
      rw [hempty] at hdict
      exact stepsDict_written (mapM_eq_some.mp hlist) hreads.steps hvs hdict
  | _ => cases hlist

/-- The core's replay is a look at the first step that is written with the key. -/
theorem replay_written (h : written.Reads checkpoint) (key : String) :
    checkpoint.replay key =
      (written.steps.find? fun s => s.key == key).bind fun s => ofCbor s.value := by
  obtain ⟨-, hsteps⟩ := h
  rw [Thicket.Checkpoint.replay]
  generalize written.steps = ws at hsteps ⊢
  generalize checkpoint.steps = ss at hsteps ⊢
  induction hsteps with
  | nil => rfl
  | @cons w s ws ss hstep _ ih =>
      rw [List.find?_cons, List.find?_cons, hstep.1]
      cases s.key == key with
      | true => exact hstep.2.symm
      | false => exact ih

/-- The SDK's dictionary has the value of the last one. -/
theorem lookup_written (written : List WrittenStep) (key : String) :
    lookup ((OrderedDict.ofList (written.map WrittenStep.entry)).entries.map strEntry) key =
      (written.reverse.find? fun s => s.key == key).map fun s => .ofItem s.value := by
  rw [lookup_strEntries, OrderedDict.get?_ofList, ← List.map_reverse]
  induction written.reverse with
  | nil => rfl
  | cons s steps ih =>
      rw [List.map_cons, List.lookup_cons, List.find?_cons, ih, WrittenStep.entry]
      by_cases hkey : s.key = key
      · simp [hkey]
      · rw [beq_eq_false_iff_ne.mpr hkey, beq_eq_false_iff_ne.mpr (Ne.symm hkey)]

theorem ofItem_eq_bytes {item : Cbor.Value} {bs : Bytes} (h : Value.ofItem item = .bytes bs) :
    item = .bytes bs := by
  cases item <;> cases h
  rfl

theorem find?_isSome_of_reverse {steps : List WrittenStep} {key : String}
    (h : steps.reverse.find? (fun s => s.key == key) = none) :
    steps.find? (fun s => s.key == key) = none := by
  rw [List.find?_eq_none] at h ⊢
  exact fun s hs => h s (List.mem_reverse.mpr hs)

/-- The two give the same value under every key just when the last step of every key is written with
the bytes of the first. -/
theorem same_values_iff (h : written.Reads checkpoint) :
    (∀ key, lookup ((OrderedDict.ofList (written.steps.map WrittenStep.entry)).entries.map
        strEntry) key = (checkpoint.replay key).map .bytes) ↔
      ∀ key last, written.steps.reverse.find? (fun s => s.key == key) = some last →
        ∃ first bs, written.steps.find? (fun s => s.key == key) = some first ∧
          last.value = .bytes bs ∧ ofCbor first.value = some bs := by
  simp only [lookup_written, replay_written h]
  constructor
  · intro hsame key last hlast
    have hkey := hsame key
    rw [hlast, Option.map_some] at hkey
    obtain ⟨bs, hbs, hvalue⟩ := Option.map_eq_some_iff.mp hkey.symm
    obtain ⟨first, hfirst, hread⟩ := Option.bind_eq_some_iff.mp hbs
    exact ⟨first, bs, hfirst, ofItem_eq_bytes hvalue.symm, hread⟩
  · intro hplain key
    cases hlast : written.steps.reverse.find? (fun s => s.key == key) with
    | none =>
        rw [find?_isSome_of_reverse hlast]
        rfl
    | some last =>
        obtain ⟨first, bs, hfirst, hvalue, hread⟩ := hplain key last hlast
        rw [hfirst, Option.map_some, hvalue, Option.bind_some, hread]
        rfl

/-- The dictionary of the checkpoint without repeats. -/
def dictOf (checkpoint : Thicket.Checkpoint) : OrderedDict String Value where
  entries := (withoutRepeats checkpoint).steps.map fun s => (s.key, .bytes s.value)
  nodup := by
    rw [List.map_map]
    exact OrderedDict.nodup_firstOf Step.key checkpoint.steps

theorem get?_dictOf (checkpoint : Thicket.Checkpoint) (key : String) :
    (dictOf checkpoint).get? key = (checkpoint.replay key).map .bytes := by
  rw [Thicket.Checkpoint.replay, ← OrderedDict.find?_firstOf Step.key]
  change ((OrderedDict.firstOf Step.key checkpoint.steps).map _).lookup key = _
  induction OrderedDict.firstOf Step.key checkpoint.steps with
  | nil => rfl
  | cons s steps ih =>
      rw [List.map_cons, List.lookup_cons, List.find?_cons, ih]
      by_cases hkey : s.key = key
      · simp [hkey]
      · rw [beq_eq_false_iff_ne.mpr hkey, beq_eq_false_iff_ne.mpr (Ne.symm hkey)]

theorem ofList_written (h : written.Reads checkpoint)
    (hvalues : ∀ key, lookup ((OrderedDict.ofList (written.steps.map
      WrittenStep.entry)).entries.map strEntry) key = (checkpoint.replay key).map .bytes) :
    OrderedDict.ofList (written.steps.map WrittenStep.entry) = dictOf checkpoint := by
  apply OrderedDict.ext_get?
  · have hkeys : (written.steps.map WrittenStep.entry).map Prod.fst =
        checkpoint.steps.map Step.key := by
      obtain ⟨-, hsteps⟩ := h
      rw [List.map_map]
      clear hvalues
      generalize written.steps = ws at hsteps ⊢
      generalize checkpoint.steps = ss at hsteps ⊢
      induction hsteps with
      | nil => rfl
      | cons hstep _ ih =>
          rw [List.map_cons, List.map_cons, ih]
          exact congrArg (· :: _) hstep.1
    rw [OrderedDict.keys_ofList, hkeys, OrderedDict.keys, dictOf, List.map_map]
    exact (OrderedDict.map_firstOf Step.key checkpoint.steps).symm
  · intro key
    rw [← lookup_strEntries, hvalues, get?_dictOf]

/-- The core's encoding is what the SDK encodes for the same value. -/
theorem encodeDecoded_dictOf {bytes : Bytes} :
    encodeDecoded (.bytes checkpoint.runId) ((dictOf checkpoint).entries.map strEntry) = .ok bytes ↔
      (withoutRepeats checkpoint).toCbor = .ok bytes := by
  have hsteps : Value.of (withoutRepeats checkpoint).steps =
      .list ((dictOf checkpoint).entries.map fun e =>
        .dict [(.str "key", .str e.1), (.str "value", e.2)]) := by
    rw [of_list, dictOf, List.map_map]
    rfl
  have hvalue : Value.of (withoutRepeats checkpoint) = .dict [
      (.str "run_id", .bytes checkpoint.runId),
      (.str "steps", .of (withoutRepeats checkpoint).steps)] := rfl
  have hentries : ((dictOf checkpoint).entries.map strEntry).map (fun (k, v) =>
      Value.dict [(.str "key", k), (.str "value", v)]) =
        (dictOf checkpoint).entries.map fun e =>
          .dict [(.str "key", .str e.1), (.str "value", e.2)] := by
    rw [List.map_map]
    rfl
  rw [encodeDecoded, hentries, ← hsteps, ← hvalue, Thicket.Checkpoint.toCbor, okOr_eq_ok]
  exact encode_ofItem

/-- **Decoded alike.** What both sides accept means the same to them if and only if bytes are
written as byte strings and the last step of every key has the bytes of the first. -/
theorem decoded_alike_iff (hcore : Thicket.Checkpoint.fromCbor blob = .ok checkpoint)
    (hsdk : decodeCheckpoint blob = .ok (runId, steps)) :
    MeansTheSame checkpoint runId steps ↔
      ∃ written : WrittenCheckpoint, fromReader blob = some written ∧ written.Plain := by
  obtain ⟨item, written, hitem, hencodes, hfrom, hreads, rfl, rfl⟩ := exists_written hcore hsdk
  constructor
  · intro h
    refine ⟨written, hfrom, ?_, (same_values_iff hreads).mp h.replay⟩
    obtain ⟨bytes, hbytes, hdecoded⟩ := h.encoded
    rw [Thicket.Checkpoint.toCbor, okOr_eq_ok] at hbytes
    obtain ⟨item', hvalue, hitem'⟩ := encode_eq_ok.mp hdecoded
    obtain rfl := Cbor.encode_injective hitem' hbytes
    have hrun : Value.bytes checkpoint.runId = .ofItem written.runId :=
      (Prod.mk.inj (List.cons.inj (Value.dict.inj hvalue)).1).2
    exact ⟨checkpoint.runId, ofItem_eq_bytes hrun.symm⟩
  · rintro ⟨written', hfrom', hplain⟩
    obtain rfl := Option.some.inj (hfrom.symm.trans hfrom')
    have hvalues := (same_values_iff hreads).mpr hplain.steps
    refine ⟨hvalues, ?_⟩
    have hsome : (Cbor.encode (toCbor (withoutRepeats checkpoint))).isSome = true :=
      isSome_encode_sublist hitem hencodes (OrderedDict.firstOf_sublist Step.key checkpoint.steps)
    obtain ⟨bytes, hbytes⟩ := Option.isSome_iff_exists.mp hsome
    have hcbor : (withoutRepeats checkpoint).toCbor = .ok bytes := okOr_eq_ok.mpr hbytes
    refine ⟨bytes, hcbor, ?_⟩
    obtain ⟨bs, hbs⟩ := hplain.runId
    have hrun := hreads.runId
    rw [hbs] at hrun ⊢
    obtain rfl : bs = checkpoint.runId := Option.some.inj hrun
    rw [ofList_written hreads hvalues]
    exact encodeDecoded_dictOf.mpr hcbor

end Meaning

/-! ### A key that is written twice -/

def writtenTwice (value value' : Bytes) : Thicket.Checkpoint :=
  { runId := [1], steps := [⟨"a", value⟩, ⟨"a", value'⟩] }

def blobOf (checkpoint : Thicket.Checkpoint) : Bytes := valueOr checkpoint.toCbor []

/-- A step that is written twice with the same bytes. -/
theorem decoded_alike_repeated : MeansTheSame (writtenTwice [7] [7]) (.bytes [1])
    [(.str "a", .bytes [7])] := by
  have hcore : Thicket.Checkpoint.fromCbor (blobOf (writtenTwice [7] [7])) =
      .ok (writtenTwice [7] [7]) := by
    decide +kernel
  apply (decoded_alike_iff hcore rfl).mpr
  refine ⟨{ runId := .bytes [1], steps := [⟨"a", .bytes [7]⟩, ⟨"a", .bytes [7]⟩] }, rfl,
    ⟨[1], rfl⟩, ?_⟩
  intro key last hlast
  have hmem := List.mem_of_find?_eq_some hlast
  have hkey := List.find?_some hlast
  obtain rfl : last = ⟨"a", .bytes [7]⟩ := by simpa using hmem
  obtain rfl : "a" = key := by simpa using hkey
  exact ⟨_, [7], rfl, rfl, rfl⟩

def writtenAsNumbers : Bytes :=
  valueOr (okOr (Cbor.encode (.map [(.text "run_id", .bytes [1]), (.text "steps", .array [
    .map [(.text "key", .text "a"), (.text "value", .array [.uint 7])]])])) Exc.valueError) []

/-- Of two steps with one key the core takes the first and the SDK the last. And bytes that are
written as an array of numbers are bytes to the core alone. -/
theorem decoded_differently :
    (Thicket.Checkpoint.fromCbor (blobOf (writtenTwice [7] [8])) = .ok (writtenTwice [7] [8]) ∧
      decodeCheckpoint (blobOf (writtenTwice [7] [8])) =
        .ok (.bytes [1], [(.str "a", .bytes [8])]) ∧
      ¬MeansTheSame (writtenTwice [7] [8]) (.bytes [1]) [(.str "a", .bytes [8])]) ∧
    Thicket.Checkpoint.fromCbor writtenAsNumbers = .ok { runId := [1], steps := [⟨"a", [7]⟩] } ∧
      decodeCheckpoint writtenAsNumbers = .ok (.bytes [1], [(.str "a", .list [.int 7])]) ∧
      ¬MeansTheSame { runId := [1], steps := [⟨"a", [7]⟩] } (.bytes [1])
        [(.str "a", .list [.int 7])] := by
  refine ⟨⟨by decide +kernel, rfl, ?_⟩, by decide +kernel, rfl, ?_⟩
  · intro h
    have hsame : some (Value.bytes [8]) = some (.bytes [7]) := h.replay "a"
    simp at hsame
  · intro h
    have hsame : some (Value.list [.int 7]) = some (.bytes [7]) := h.replay "a"
    simp at hsame

end Thicket.Py
