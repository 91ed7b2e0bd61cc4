/-
# `users.txt` refines a map

What `process_auth` is for: a finite map from ids to passwords with two operations, register
and log in (`UserMap.apply`).

`Stores` ties the text of the file to a map: the file is a list of records `id pw`, with
different ids, and the map is its lookup.  A scan of the file is then a lookup
(`Stores.findUser`), and a whole call is one operation of the map (`Represents.processAuth`).
That calls which overlap are operations of the map as well is the subject of
`Chat.ConcurrentAuth`.
-/
import PosixLab.Chat.Auth

namespace PosixLab.Chat

open PosixLab

/-! ## 1. The map -/

/-- The registered ids and their passwords. -/
abbrev UserMap := Bytes → Option Bytes

/-- Nobody is registered. -/
def UserMap.empty : UserMap := fun _ => none

/-- The operations. -/
inductive UserOp
  | register (id pw : Bytes)
  | login (id pw : Bytes)
deriving DecidableEq

/-- The operation that a mode word asks for: everything but `REGISTER` is a login. -/
def opOf (mode id pw : Bytes) : UserOp :=
  if mode = REGISTER then .register id pw else .login id pw

theorem opOf_register (id pw : Bytes) : opOf REGISTER id pw = .register id pw := if_pos rfl

theorem opOf_login {mode : Bytes} (h : mode ≠ REGISTER) (id pw : Bytes) :
    opOf mode id pw = .login id pw := if_neg h

/-- The map after an operation, and its result: 0 for success, -1 for an id that exists or a
wrong password, -2 for an unknown id. -/
def UserMap.apply (m : UserMap) : UserOp → UserMap × Int
  | .register id pw =>
    match m id with
    | none => (Function.update m id (some pw), 0)
    | some _ => (m, -1)
  | .login id pw =>
    match m id with
    | none => (m, -2)
    | some p => (m, if p = pw then 0 else -1)

/-- A registration succeeds exactly when the id is free. -/
theorem UserMap.apply_register_eq_zero {m : UserMap} {id pw : Bytes} :
    (m.apply (.register id pw)).2 = 0 ↔ m id = none := by
  cases h : m id <;> simp [UserMap.apply, h]

/-- A login succeeds exactly with the password of the id. -/
theorem UserMap.apply_login_eq_zero {m : UserMap} {id pw : Bytes} :
    (m.apply (.login id pw)).2 = 0 ↔ m id = some pw := by
  cases h : m id <;> simp [UserMap.apply, h]

/-- Nothing that is bound changes. -/
theorem UserMap.apply_of_bound {m : UserMap} {id p : Bytes} (h : m id = some p) (op : UserOp) :
    (m.apply op).1 id = some p := by
  cases op with
  | login i pw => cases hi : m i <;> simp [UserMap.apply, hi, h]
  | register i pw =>
    cases hi : m i with
    | some q => simp [UserMap.apply, hi, h]
    | none =>
      have hne : id ≠ i := by
        rintro rfl
        simp [hi] at h
      simp [UserMap.apply, hi, Function.update_of_ne hne, h]

/-- What is bound was bound before, or is the registration's. -/
theorem UserMap.bound_of_apply {m : UserMap} {id p : Bytes} {op : UserOp}
    (h : (m.apply op).1 id = some p) :
    m id = some p ∨ (op = .register id p ∧ (m.apply op).2 = 0) := by
  cases op with
  | login i pw => cases hi : m i <;> simp_all [UserMap.apply]
  | register i pw =>
    cases hi : m i with
    | some q => exact Or.inl (by simpa [UserMap.apply, hi] using h)
    | none =>
      by_cases hid : id = i
      · subst hid
        refine Or.inr ?_
        simp only [UserMap.apply, hi, Function.update_self, Option.some.injEq] at h ⊢
        exact ⟨by rw [h], trivial⟩
      · refine Or.inl ?_
        simpa [UserMap.apply, hi, Function.update_of_ne hid] using h

/-! ## 2. The file as a map -/

/-- A text that survives being printed with `%s` and read back with `%s`. -/
structure IsField (w : Bytes) : Prop where
  word : IsWord w
  nulFree : NulFree w

/-- The text of a list of records. -/
def encodeUsers (recs : List (Bytes × Bytes)) : Bytes :=
  recs.flatMap fun r => record r.1 r.2

theorem words_record_append {id pw : Bytes} (hi : IsWord id) (hp : IsWord pw) (rest : Bytes) :
    words (record id pw ++ rest) = id :: pw :: words rest := by
  have hsplit : record id pw ++ rest = id ++ 32 :: (pw ++ 10 :: rest) := by
    simp [record]
  rw [hsplit, words_append_space (by decide), words_append_space (by decide), words_word hi,
    words_word hp]
  rfl

/-- The records of a file, read back word by word. -/
theorem fileWords_encodeUsers {recs : List (Bytes × Bytes)}
    (h : ∀ r ∈ recs, IsField r.1 ∧ IsField r.2) :
    fileWords (encodeUsers recs) = recs.flatMap fun r => [r.1, r.2] := by
  induction recs with
  | nil => rfl
  | cons r recs ih =>
    obtain ⟨hi, hp⟩ := h r List.mem_cons_self
    replace ih := ih fun x hx => h x (List.mem_cons_of_mem _ hx)
    simp only [fileWords] at ih
    simp only [fileWords, encodeUsers, List.flatMap_cons]
    rw [words_record_append hi.word hp.word, List.map_cons, List.map_cons,
      cstr_of_nulFree hi.nulFree,
      cstr_of_nulFree hp.nulFree]
    exact congrArg (fun ws => r.1 :: r.2 :: ws) ih

/-- The scan loop over the words of records is a lookup. -/
theorem findUser_records (id filePw : Bytes) (recs : List (Bytes × Bytes)) :
    findUser id (recs.flatMap fun r => [r.1, r.2]) filePw = recs.lookup id := by
  induction recs generalizing filePw with
  | nil => rfl
  | cons r recs ih =>
    obtain ⟨i, p⟩ := r
    simp only [List.flatMap_cons, List.cons_append, List.nil_append, findUser, List.lookup_cons,
      ih]
    by_cases h : i = id
    · simp [h]
    · have h' : (id == i) = false := beq_eq_false_iff_ne.mpr (fun e => h e.symm)
      simp [h, h']

/-- The file holds the records `recs`, whose ids differ, and `m` is their lookup. -/
structure Stores (recs : List (Bytes × Bytes)) (content : Bytes) (m : UserMap) : Prop where
  content_eq : content = encodeUsers recs
  fields : ∀ r ∈ recs, IsField r.1 ∧ IsField r.2
  nodup : (recs.map Prod.fst).Nodup
  lookup : ∀ id, m id = recs.lookup id

/-- The file represents the map `m`. -/
def Represents (content : Bytes) (m : UserMap) : Prop := ∃ recs, Stores recs content m

theorem represents_empty : Represents [] UserMap.empty :=
  ⟨[], rfl, by simp, List.nodup_nil, fun _ => rfl⟩

theorem Stores.findUser {recs : List (Bytes × Bytes)} {content : Bytes} {m : UserMap}
    (h : Stores recs content m) (id filePw : Bytes) :
    findUser id (fileWords content) filePw = m id := by
  rw [h.content_eq, fileWords_encodeUsers h.fields, findUser_records, h.lookup]

theorem Represents.findUser {content : Bytes} {m : UserMap} (h : Represents content m)
    (id filePw : Bytes) : Chat.findUser id (fileWords content) filePw = m id := by
  obtain ⟨recs, hs⟩ := h
  exact hs.findUser id filePw

/-- Appending a record for a new id binds it. -/
theorem Represents.append {content : Bytes} {m : UserMap} (h : Represents content m)
    {id pw : Bytes} (hi : IsField id) (hp : IsField pw) (hnew : m id = none) :
    Represents (content ++ record id pw) (Function.update m id (some pw)) := by
  obtain ⟨recs, hs⟩ := h
  have hnone : recs.lookup id = none := (hs.lookup id).symm.trans hnew
  refine ⟨recs ++ [(id, pw)], ?_, ?_, ?_, fun i => ?_⟩
  · rw [hs.content_eq, encodeUsers, encodeUsers, List.flatMap_append]
    simp
  · intro r hr
    rcases List.mem_append.mp hr with h | h
    · exact hs.fields r h
    · rw [List.mem_singleton.mp h]
      exact ⟨hi, hp⟩
  · rw [List.map_append]
    refine List.Nodup.append hs.nodup (List.nodup_singleton _) ?_
    rw [List.map_cons, List.map_nil, List.disjoint_singleton]
    intro hmem
    obtain ⟨r, hr, rfl⟩ := List.mem_map.mp hmem
    have := List.lookup_eq_none_iff.mp hnone r hr
    simp at this
  · rw [List.lookup_append]
    by_cases hid : i = id
    · subst hid
      simp [hnone]
    · have hne : (i == id) = false := beq_eq_false_iff_ne.mpr hid
      rw [Function.update_of_ne hid, hs.lookup]
      simp [List.lookup_cons, hne]

/-- A whole call of `process_auth` is one operation of the map. -/
theorem Represents.processAuth {content : Bytes} {m : UserMap} (h : Represents content m)
    {mode id pw : Bytes} (filePw : Bytes)
    (hf : mode = REGISTER → m id = none → IsField id ∧ IsField pw) :
    Represents (processAuth content mode id pw filePw).1 (m.apply (opOf mode id pw)).1 ∧
      (Chat.processAuth content mode id pw filePw).2 = (m.apply (opOf mode id pw)).2 := by
  unfold Chat.processAuth
  rw [h.findUser id filePw]
  by_cases hm : mode = REGISTER
  · subst hm
    rw [opOf_register]
    cases hid : m id with
    | none =>
      obtain ⟨hi, hp⟩ := hf rfl hid
      simpa [UserMap.apply, hid] using h.append hi hp hid
    | some p => simpa [UserMap.apply, hid] using h
  · rw [opOf_login hm]
    cases hid : m id with
    | none => simpa [UserMap.apply, hid, hm] using h
    | some p => simpa [UserMap.apply, hid, hm] using h

end PosixLab.Chat
