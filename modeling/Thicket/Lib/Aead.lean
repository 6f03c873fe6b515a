import Mathlib.Data.List.Basic
import Mathlib.Data.List.Infix
import Thicket.Lib.Result

/-!
# Authenticated encryption with a counter

One direction of a channel encrypts its messages under the nonces 0, 1, 2 and so on, which are not
transmitted: the receiver counts what it has decrypted. A lawful cipher decrypts what was encrypted
under the same nonce. In the symbolic model nothing else decrypts: the receiver looks a ciphertext up
in the log of what the sender encrypted, at its own position.
-/

namespace Aead

open Result

variable {β ε : Type}

/-- The ciphertexts of messages that are encrypted one after the other, the first under `nonce`. -/
def sealAll (write : Nat → List β → List β) (nonce : Nat) : List (List β) → List (List β)
  | [] => []
  | message :: messages => write nonce message :: sealAll write (nonce + 1) messages

/-- The messages of ciphertexts that are decrypted one after the other. -/
def openAll (read : Nat → List β → Except ε (List β)) (nonce : Nat) :
    List (List β) → Except ε (List (List β))
  | [] => .ok []
  | ciphertext :: ciphertexts => do
      let message ← read nonce ciphertext
      return message :: (← openAll read (nonce + 1) ciphertexts)

/-- A cipher whose ciphertexts are longer than the messages by a tag. -/
structure Cipher (β ε : Type) (tag : Nat) where
  write : Nat → List β → List β
  read : Nat → List β → Except ε (List β)
  length_write : ∀ nonce message, (write nonce message).length = message.length + tag
  read_write : ∀ nonce message, read nonce (write nonce message) = .ok message

variable {tag : Nat} {write : Nat → List β → List β} {nonce : Nat} {messages : List (List β)}

theorem length_sealAll : (sealAll write nonce messages).length = messages.length := by
  induction messages generalizing nonce with
  | nil => rfl
  | cons message messages ih => rw [sealAll, List.length_cons, ih, List.length_cons]

namespace Cipher

variable (cipher : Cipher β ε tag)

theorem openAll_sealAll (nonce : Nat) (messages : List (List β)) :
    openAll cipher.read nonce (sealAll cipher.write nonce messages) = .ok messages := by
  induction messages generalizing nonce with
  | nil => rfl
  | cons message messages ih =>
      rw [sealAll, openAll, cipher.read_write, ih]
      rfl

theorem exists_of_mem_sealAll {ciphertext : List β}
    (h : ciphertext ∈ sealAll cipher.write nonce messages) :
    ∃ message ∈ messages, ciphertext.length = message.length + tag := by
  induction messages generalizing nonce with
  | nil => cases h
  | cons message messages ih =>
      rcases List.mem_cons.mp h with rfl | h
      · exact ⟨message, List.mem_cons_self, cipher.length_write nonce message⟩
      · obtain ⟨m, hm, hlen⟩ := ih h
        exact ⟨m, List.mem_cons_of_mem _ hm, hlen⟩

end Cipher

/-! ### The symbolic model -/

/-- What the sender encrypted, each ciphertext with its message, by nonce. -/
abbrev Log (β : Type) := List (List β × List β)

/-- The ciphertexts of further messages, with the messages. -/
def Log.entries (write : Nat → List β → List β) (log : Log β) (messages : List (List β)) : Log β :=
  (sealAll write log.length messages).zip messages

variable [DecidableEq β]

def Log.read (refusal : ε) (log : Log β) (nonce : Nat) (ciphertext : List β) :
    Except ε (List β) :=
  match log[nonce]? with
  | none => .error refusal
  | some entry => if ciphertext = entry.1 then .ok entry.2 else .error refusal

variable {refusal : ε} {log : Log β}

section

omit [DecidableEq β]

variable (write : Nat → List β → List β) (log : Log β) (messages : List (List β))

theorem Log.map_snd_entries : (log.entries write messages).map Prod.snd = messages := by
  apply List.map_snd_zip
  rw [length_sealAll]

end

theorem Log.read_eq_ok {ciphertext message : List β} :
    log.read refusal nonce ciphertext = .ok message ↔ log[nonce]? = some (ciphertext, message) := by
  unfold Log.read
  cases log[nonce]? with
  | none => simp
  | some entry =>
      obtain ⟨c, m⟩ := entry
      by_cases hc : ciphertext = c
      · simp [hc]
      · have hc' : ¬c = ciphertext := fun h => hc h.symm
        simp [hc, hc']

/-- **Nothing but the next ciphertexts decrypts**, and they decrypt to their messages. -/
theorem Log.openAll_eq_ok (refusal : ε) {ciphertexts : List (List β)} :
    openAll (log.read refusal) nonce ciphertexts = .ok messages ↔
      ∃ entries, entries <+: log.drop nonce ∧ ciphertexts = entries.map Prod.fst ∧
        messages = entries.map Prod.snd := by
  induction ciphertexts generalizing nonce messages with
  | nil =>
      constructor
      · intro h
        obtain rfl : [] = messages := Except.ok.inj h
        exact ⟨[], List.nil_prefix, rfl, rfl⟩
      · intro h
        obtain ⟨entries, -, hnil, rfl⟩ := h
        obtain rfl : entries = [] := List.map_eq_nil_iff.mp hnil.symm
        rfl
  | cons ciphertext ciphertexts ih =>
      simp only [openAll, bind_eq_ok, Log.read_eq_ok, ih, pure_eq_ok]
      constructor
      · intro h
        obtain ⟨message, hentry, rest, ⟨entries, hprefix, rfl, rfl⟩, rfl⟩ := h
        refine ⟨(ciphertext, message) :: entries, ?_, rfl, rfl⟩
        obtain ⟨hlt, hget⟩ := List.getElem?_eq_some_iff.mp hentry
        rw [List.drop_eq_getElem_cons hlt, hget]
        exact List.cons_prefix_cons.mpr ⟨rfl, hprefix⟩
      · intro h
        obtain ⟨entries, hprefix, hfst, rfl⟩ := h
        cases entries with
        | nil => cases hfst
        | cons entry entries =>
            obtain ⟨rfl, rfl⟩ := List.cons.inj hfst
            have hne : log.drop nonce ≠ [] := by
              intro hnil
              rw [hnil] at hprefix
              exact List.cons_ne_nil _ _ (List.prefix_nil.mp hprefix)
            have hlt : nonce < log.length := by
              rw [ne_eq, List.drop_eq_nil_iff] at hne
              omega
            rw [List.drop_eq_getElem_cons hlt, List.cons_prefix_cons] at hprefix
            refine ⟨entry.2, ?_, entries.map Prod.snd, ⟨entries, hprefix.2, rfl, rfl⟩, rfl⟩
            rw [List.getElem?_eq_getElem hlt, ← hprefix.1]

end Aead
