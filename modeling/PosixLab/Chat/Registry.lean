/-
# The table of connected clients

`gui_server.c` keeps its clients in `clnt_list[MAX_CLNT]`, of which the first `clnt_cnt` slots
are in use.  Two pieces of code write it, each inside the mutex: the accept loop of `main`
appends, and the `DISCONNECT` block of `handle_clnt` looks the departing socket up and closes
the gap.

The loop that closes the gap is

    while (i++ < clnt_cnt - 1)
        clnt_list[i] = clnt_list[i + 1];

and its body runs with the index already incremented.  So the slot that was found is kept and
the one BEHIND it is overwritten (`live_remove`); only when the found slot is the last one does
the departing client leave the table, because of the decrement of `clnt_cnt` that follows.

* `registry_exact_iff`: the table holds the connected clients along a run exactly when the
  clients leave in last-in first-out order.
* `registry_bounds_iff`: the counter and the indices stay inside the table along a run exactly
  when nobody is accepted into a full table and nobody leaves a full one from a slot other
  than the last.
-/
import Mathlib.Data.List.Find
import Mathlib.Data.List.Nodup
import Mathlib.Logic.Function.Basic
import PosixLab.Basis.Runs

namespace PosixLab.Chat

open PosixLab

/-! ## 1. The table -/

/-- The size of `clnt_list`. -/
def maxClnt : Nat := 256

/-- A pointer to a `Client` record. -/
abbrev Addr := Nat

/-- The globals `clnt_cnt` and `clnt_list`.  Slots from `maxClnt` on stand for the memory
behind the array. -/
structure Registry where
  clntCnt : Int
  clntList : Nat → Addr

namespace Registry

/-- Zero-initialised globals. -/
def empty : Registry := ⟨0, fun _ => 0⟩

/-- The slots in use, `clnt_list[0..clnt_cnt)`. -/
def live (r : Registry) : List Addr := (List.range r.clntCnt.toNat).map r.clntList

/-- The accept loop's `clnt_list[clnt_cnt++] = new_clnt`. -/
def add (r : Registry) (c : Addr) : Registry :=
  ⟨r.clntCnt + 1, Function.update r.clntList r.clntCnt.toNat c⟩

/-- The search of the `DISCONNECT` block: the first slot in use whose client has the socket
`sock`. -/
def findSock (sockOf : Addr → Int) (r : Registry) (sock : Int) : Option Nat :=
  (List.range r.clntCnt.toNat).find? fun i => sock == sockOf (r.clntList i)

/-- The shift loop `while (i++ < clnt_cnt - 1) clnt_list[i] = clnt_list[i + 1]`, entered with
the index `i`.  The comparison sees `i` and the assignment `i + 1`.  The second component is
the indices at which the loop accesses the table. -/
def shiftLoop (cnt : Int) : Nat → Nat → (Nat → Addr) → (Nat → Addr) × List Int
  | 0, _, list => (list, [])
  | fuel + 1, i, list =>
    if (i : Int) < cnt - 1 then
      let r := shiftLoop cnt fuel (i + 1) (Function.update list (i + 1) (list (i + 2)))
      (r.1, (i + 2 : Int) :: (i + 1 : Int) :: r.2)
    else (list, [])

/-- The shift loop of a table, from the slot `i`.  It runs at most `clnt_cnt` times. -/
def shift (r : Registry) (i : Nat) : (Nat → Addr) × List Int :=
  shiftLoop r.clntCnt r.clntCnt.toNat i r.clntList

/-- The locked part of the `DISCONNECT` block, for the socket `sock`. -/
def remove (sockOf : Addr → Int) (r : Registry) (sock : Int) : Registry where
  clntCnt := r.clntCnt - 1
  clntList :=
    match r.findSock sockOf sock with
    | none => r.clntList
    | some i => (r.shift i).1

/-- The indices at which the shift loop of the `DISCONNECT` block accesses the table. -/
def removeTouched (sockOf : Addr → Int) (r : Registry) (sock : Int) : List Int :=
  match r.findSock sockOf sock with
  | none => []
  | some i => (r.shift i).2

/-! ## 2. What the operations do to the slots in use -/

@[simp] theorem live_empty : empty.live = [] := rfl

@[simp] theorem length_live (r : Registry) : r.live.length = r.clntCnt.toNat := by
  simp [live]

theorem getElem?_live {r : Registry} {j : Nat} (h : j < r.clntCnt.toNat) :
    r.live[j]? = some (r.clntList j) := by
  simp [live, h]

theorem live_add {r : Registry} (h : 0 ≤ r.clntCnt) (c : Addr) :
    (r.add c).live = r.live ++ [c] := by
  have hcnt : (r.clntCnt + 1).toNat = r.clntCnt.toNat + 1 := by omega
  simp only [live, add, hcnt, List.range_succ, List.map_append, List.map_cons, List.map_nil,
    Function.update_self]
  congr 1
  refine List.map_congr_left ?_
  intro j hj
  rw [Function.update_of_ne (Nat.ne_of_lt (List.mem_range.mp hj))]

/-- The shift loop moves every slot behind the one it was entered with down by one.  The
entry slot itself is not written. -/
theorem shiftLoop_apply (cnt : Int) (fuel i : Nat) (list : Nat → Addr)
    (h : cnt - 1 ≤ fuel + i) (j : Nat) :
    (shiftLoop cnt fuel i list).1 j =
      if i < j ∧ (j : Int) < cnt then list (j + 1) else list j := by
  induction fuel generalizing i list with
  | zero =>
    rw [if_neg (by omega)]
    rfl
  | succ fuel ih =>
    unfold shiftLoop
    split
    · rename_i hi
      rw [ih (i + 1) _ (by push_cast at h ⊢; omega)]
      by_cases hj : j = i + 1
      · subst hj
        rw [if_neg (by omega), if_pos (by omega), Function.update_self]
      · rw [Function.update_of_ne hj]
        split
        · rw [if_pos (by omega), Function.update_of_ne (by omega)]
        · rw [if_neg (by omega)]
    · rw [if_neg (by omega)]

theorem shift_apply (r : Registry) (i j : Nat) :
    (r.shift i).1 j =
      if i < j ∧ (j : Int) < r.clntCnt then r.clntList (j + 1) else r.clntList j :=
  shiftLoop_apply _ _ _ _ (by omega) j

/-- The indices the shift loop uses: it writes behind the entry slot and inside the slots in
use, and reads one further. -/
theorem mem_shiftLoop_touched (cnt : Int) (fuel i : Nat) (list : Nat → Addr)
    (h : cnt - 1 ≤ fuel + i) (k : Int) :
    k ∈ (shiftLoop cnt fuel i list).2 ↔ (i : Int) < k ∧ k ≤ cnt ∧ (i : Int) < cnt - 1 := by
  induction fuel generalizing i list with
  | zero =>
    simp only [shiftLoop, List.not_mem_nil, false_iff]
    omega
  | succ fuel ih =>
    unfold shiftLoop
    split
    · rename_i hi
      have hrest := ih (i + 1) (Function.update list (i + 1) (list (i + 2)))
        (by push_cast at h ⊢; omega)
      simp only [List.mem_cons, hrest]
      push_cast
      omega
    · simp only [List.not_mem_nil, false_iff]
      omega

/-- The slot that the removal makes unreachable: the one behind the slot `i` that was found,
or `i` itself when it is the last of `n`. -/
def lostSlot (n i : Nat) : Nat := if i + 1 < n then i + 1 else i

/-- What the removal does when the socket is found in slot `i`. -/
theorem live_remove {sockOf : Addr → Int} {r : Registry} {sock : Int} {i : Nat}
    (hf : r.findSock sockOf sock = some i) :
    (r.remove sockOf sock).live = r.live.eraseIdx (lostSlot r.live.length i) := by
  have hi : i < r.clntCnt.toNat := by
    simpa using List.mem_range.mp (List.mem_of_find?_eq_some hf)
  have hlost : lostSlot r.live.length i < r.live.length := by
    rw [length_live]
    unfold lostSlot
    split <;> omega
  refine List.ext_getElem? ?_
  intro j
  rw [List.getElem?_eraseIdx]
  by_cases hj : j < r.clntCnt.toNat - 1
  · have hj' : j < (r.remove sockOf sock).clntCnt.toNat := by simp only [remove]; omega
    rw [getElem?_live hj', getElem?_live (by omega), getElem?_live (by omega)]
    simp only [remove, hf, shift_apply, length_live, lostSlot]
    split <;> split <;> split <;> first | rfl | omega
  · have hout : (r.remove sockOf sock).live.length ≤ j := by
      simp only [length_live, remove]
      omega
    rw [List.getElem?_eq_none hout]
    simp only [length_live] at hlost ⊢
    rw [if_neg (by omega), List.getElem?_eq_none (by rw [length_live]; omega)]

/-- The removal looks at the sockets of the slots in use and at no others. -/
theorem remove_congr {f g : Addr → Int} {r : Registry} (h : ∀ e ∈ r.live, f e = g e)
    (sock : Int) : r.remove f sock = r.remove g sock := by
  have hfind : r.findSock f sock = r.findSock g sock := by
    unfold findSock
    refine List.find?_congr fun i hi => ?_
    rw [h]
    exact List.mem_map_of_mem hi
  simp only [remove, hfind]

/-- Found in the last slot in use, the client leaves and nobody else does. -/
theorem live_remove_last {sockOf : Addr → Int} {r : Registry} {sock : Int}
    (hf : r.findSock sockOf sock = some (r.live.length - 1)) :
    (r.remove sockOf sock).live = r.live.dropLast := by
  rw [live_remove hf, lostSlot, if_neg (by omega), List.eraseIdx_length_sub_one]

/-- What the removal does when the socket is not found: the decrement alone drops the last
slot. -/
theorem live_remove_none {sockOf : Addr → Int} {r : Registry} {sock : Int}
    (hf : r.findSock sockOf sock = none) :
    (r.remove sockOf sock).live = r.live.dropLast := by
  refine List.ext_getElem? ?_
  intro j
  rw [List.getElem?_dropLast, length_live]
  by_cases hj : j < r.clntCnt.toNat - 1
  · have hj' : j < (r.remove sockOf sock).clntCnt.toNat := by simp only [remove]; omega
    rw [getElem?_live hj', if_pos hj, getElem?_live (by omega)]
    simp only [remove, hf]
  · rw [if_neg hj, List.getElem?_eq_none]
    simp only [length_live, remove]
    omega

/-- The search finds the slot of a live client whose socket no other live client has. -/
theorem findSock_of_unique {sockOf : Addr → Int} {r : Registry} {c : Addr} {i : Nat}
    (hi : r.live[i]? = some c)
    (hu : ∀ j d, r.live[j]? = some d → sockOf d = sockOf c → j = i) :
    r.findSock sockOf (sockOf c) = some i := by
  obtain ⟨hlt, -⟩ := List.getElem?_eq_some_iff.mp hi
  rw [length_live] at hlt
  have hc : r.clntList i = c := by
    rw [getElem?_live hlt] at hi
    exact Option.some.inj hi
  unfold findSock
  rw [List.find?_range_eq_some]
  refine ⟨by simp [hc], List.mem_range.mpr hlt, fun j hj => ?_⟩
  have hjl : j < r.clntCnt.toNat := by omega
  simp only [Bool.not_eq_eq_eq_not, Bool.not_true, beq_eq_false_iff_ne, ne_eq]
  intro h
  have := hu j _ (getElem?_live hjl) h.symm
  omega

end Registry

/-! ## 3. Runs of accepts and disconnects -/

/-- What happens to the table: the accept loop adds a client, or the `DISCONNECT` block of a
client's handler runs. -/
inductive RegOp
  | accept (c : Addr)
  | disconnect (c : Addr)
deriving DecidableEq

/-- The table beside what it should hold: the clients that were accepted and have not
disconnected, in the order they came.  `touched` is the indices at which the last operation
accessed `clnt_list`. -/
structure RegState where
  reg : Registry
  connected : List Addr
  touched : List Int

/-- Before the first accept. -/
def RegState.init : RegState := ⟨Registry.empty, [], []⟩

/-- One operation.  `sockOf` gives each client's socket. -/
def regStep (sockOf : Addr → Int) (s : RegState) : RegOp → RegState
  | .accept c => ⟨s.reg.add c, s.connected ++ [c], [s.reg.clntCnt]⟩
  | .disconnect c =>
    ⟨s.reg.remove sockOf (sockOf c), s.connected.erase c,
      s.reg.removeTouched sockOf (sockOf c)⟩

/-- The operations that can happen at all: the accepted record is not one in use, and the
clients that disconnect are connected ones. -/
def Possible (s : RegState) : RegOp → Prop
  | .accept c => c ∉ s.connected
  | .disconnect c => c ∈ s.connected

/-- Moreover no two connected clients have one socket, and at most `maxClnt` are connected. -/
def Admissible (sockOf : Addr → Int) (s : RegState) (op : RegOp) : Prop :=
  Possible s op ∧ ∀ c, op = .accept c →
    sockOf c ∉ s.connected.map sockOf ∧ s.connected.length < maxClnt

instance (s : RegState) : (op : RegOp) → Decidable (Possible s op)
  | .accept c => inferInstanceAs (Decidable (c ∉ s.connected))
  | .disconnect c => inferInstanceAs (Decidable (c ∈ s.connected))

instance (sockOf : Addr → Int) (s : RegState) : (op : RegOp) → Decidable (Admissible sockOf s op)
  | .accept c =>
    decidable_of_iff (Possible s (.accept c) ∧ sockOf c ∉ s.connected.map sockOf ∧
      s.connected.length < maxClnt) (by simp [Admissible])
  | .disconnect c => decidable_of_iff (Possible s (.disconnect c)) (by simp [Admissible])

/-! ## 4. When the table holds exactly the connected clients -/

/-- The slots in use hold exactly the connected clients, each once. -/
def Exact (s : RegState) : Prop :=
  s.reg.live.Nodup ∧ ∀ c, c ∈ s.reg.live ↔ c ∈ s.connected

/-- The departing client is the last one that came and is still connected. -/
def LastIn (s : RegState) : RegOp → Prop
  | .accept _ => True
  | .disconnect c => s.connected.getLast? = some c

/-- The table is the list of connected clients, in order.  This is what runs keep whose
departures are last-in first-out. -/
structure InOrder (sockOf : Addr → Int) (s : RegState) : Prop where
  live_eq : s.reg.live = s.connected
  cnt_nonneg : 0 ≤ s.reg.clntCnt
  socks : (s.connected.map sockOf).Nodup

variable {sockOf : Addr → Int} {s : RegState}

theorem InOrder.nodup (h : InOrder sockOf s) : s.connected.Nodup := h.socks.of_map

theorem InOrder.exact (h : InOrder sockOf s) : Exact s := by
  refine ⟨h.live_eq ▸ h.nodup, fun c => ?_⟩
  rw [h.live_eq]

/-- In a table whose clients have different sockets the search finds each at its own slot. -/
theorem findSock_live {r : Registry} (hs : (r.live.map sockOf).Nodup) {c : Addr} {i : Nat}
    (hi : r.live[i]? = some c) : r.findSock sockOf (sockOf c) = some i := by
  refine Registry.findSock_of_unique hi ?_
  intro j d hj hd
  have hmap : (r.live.map sockOf)[j]? = (r.live.map sockOf)[i]? := by
    simp [hi, hj, hd]
  have hlt : j < (r.live.map sockOf).length := by
    obtain ⟨hlt, -⟩ := List.getElem?_eq_some_iff.mp hj
    simpa using hlt
  exact (List.getElem?_inj hlt hs).mp hmap

/-- The `DISCONNECT` block of the client in slot `i` takes out that client and keeps every
other one exactly when slot `i` is the last one in use. -/
theorem remove_exact_iff {r : Registry} (hs : (r.live.map sockOf).Nodup) {c : Addr} {i : Nat}
    (hi : r.live[i]? = some c) :
    (∀ d, d ∈ (r.remove sockOf (sockOf c)).live ↔ d ∈ r.live ∧ d ≠ c) ↔
      i + 1 = r.live.length := by
  have hnd : r.live.Nodup := hs.of_map
  obtain ⟨hlt, hget⟩ := List.getElem?_eq_some_iff.mp hi
  rw [Registry.live_remove (findSock_live hs hi), Registry.lostSlot]
  constructor
  · intro h
    by_contra hne
    rw [if_pos (by omega)] at h
    -- the client stays: only the slot behind it was taken out
    have hmem : c ∈ r.live.eraseIdx (i + 1) :=
      List.mem_eraseIdx_iff_getElem?.mpr ⟨i, by omega, hi⟩
    exact ((h c).mp hmem).2 rfl
  · intro h d
    rw [if_neg (by omega), ← hget, ← List.Nodup.erase_getElem hnd i hlt, hnd.mem_erase_iff,
      and_comm]

/-- One step of a run in which the departures so far were last-in first-out. -/
theorem InOrder.step (h : InOrder sockOf s) {op : RegOp} (ha : Admissible sockOf s op)
    (hl : LastIn s op) : InOrder sockOf (regStep sockOf s op) := by
  cases op with
  | accept c =>
    obtain ⟨hsock, -⟩ := ha.2 c rfl
    refine ⟨?_, ?_, ?_⟩
    · simp only [regStep, Registry.live_add h.cnt_nonneg, h.live_eq]
    · have := h.cnt_nonneg
      simp only [regStep, Registry.add]
      omega
    · simp only [regStep, List.map_append, List.map_cons, List.map_nil]
      refine List.Nodup.append h.socks (List.nodup_singleton _) ?_
      exact List.disjoint_singleton.mpr hsock
  | disconnect c =>
    have hmem : c ∈ s.connected := ha.1
    have hlast : s.connected.getLast? = some c := hl
    have hpos : 0 < s.connected.length := List.length_pos_of_mem hmem
    have hi : s.reg.live[s.connected.length - 1]? = some c := by
      rw [h.live_eq, ← List.getLast?_eq_getElem?]
      exact hlast
    have hs : (s.reg.live.map sockOf).Nodup := h.live_eq ▸ h.socks
    have hget : s.connected[s.connected.length - 1] = c := by
      have := hi
      rw [h.live_eq, List.getElem?_eq_getElem (by omega)] at this
      exact Option.some.inj this
    have hlen : s.reg.clntCnt.toNat = s.connected.length := by
      rw [← Registry.length_live, h.live_eq]
    refine ⟨?_, ?_, ?_⟩
    · simp only [regStep]
      rw [Registry.live_remove (findSock_live hs hi), h.live_eq, Registry.lostSlot,
        if_neg (by omega), ← List.Nodup.erase_getElem h.nodup _ (by omega), hget]
    · simp only [regStep, Registry.remove]
      omega
    · exact h.socks.sublist (List.Sublist.map _ List.erase_sublist)

/-- Conversely, a step that leaves the table exact was last-in first-out. -/
theorem InOrder.lastIn_of_exact (h : InOrder sockOf s) {op : RegOp}
    (ha : Admissible sockOf s op) (he : Exact (regStep sockOf s op)) : LastIn s op := by
  cases op with
  | accept c => trivial
  | disconnect c =>
    have hmem : c ∈ s.connected := ha.1
    have hs : (s.reg.live.map sockOf).Nodup := h.live_eq ▸ h.socks
    obtain ⟨i, hi⟩ := List.mem_iff_getElem?.mp (h.live_eq ▸ hmem : c ∈ s.reg.live)
    have hlast : i + 1 = s.reg.live.length := by
      refine (remove_exact_iff hs hi).mp fun d => ?_
      rw [h.live_eq, and_comm, ← h.nodup.mem_erase_iff]
      exact he.2 d
    rw [h.live_eq] at hi hlast
    simp only [LastIn, List.getLast?_eq_getElem?, ← hi]
    congr 1
    omega

/-- After every operation of an admissible run the table holds exactly the clients that were
accepted and have not disconnected, each once, if and only if the clients leave in last-in
first-out order.  And a single `DISCONNECT` takes out the departing client and keeps every
other, from any table, if and only if the departing client is in the last slot in use. -/
theorem registry_exact_iff (sockOf : Addr → Int) (ops : List RegOp)
    (hops : Each (regStep sockOf) (Admissible sockOf) RegState.init ops) :
    (Always (regStep sockOf) Exact RegState.init ops ↔
      Each (regStep sockOf) LastIn RegState.init ops) ∧
    ∀ (r : Registry) (c : Addr) (i : Nat), (r.live.map sockOf).Nodup → r.live[i]? = some c →
      ((∀ d, d ∈ (r.remove sockOf (sockOf c)).live ↔ d ∈ r.live ∧ d ≠ c) ↔
        i + 1 = r.live.length) := by
  refine ⟨?_, fun r c i hs hi => remove_exact_iff hs hi⟩
  have h₀ : InOrder sockOf RegState.init := ⟨rfl, Int.le_refl 0, List.nodup_nil⟩
  exact always_iff_each InOrder.exact (fun h ha hl => h.step ha hl)
    (fun h ha he => h.lastIn_of_exact ha he) h₀ hops

theorem registry_exact_iff_three :
    (Always (regStep Int.ofNat) Exact RegState.init
        [.accept 1, .accept 2, .disconnect 2] ↔
      Each (regStep Int.ofNat) LastIn RegState.init
        [.accept 1, .accept 2, .disconnect 2]) ∧
    ∀ (r : Registry) (c : Addr) (i : Nat), (r.live.map Int.ofNat).Nodup →
      r.live[i]? = some c →
      ((∀ d, d ∈ (r.remove Int.ofNat (Int.ofNat c)).live ↔ d ∈ r.live ∧ d ≠ c) ↔
        i + 1 = r.live.length) :=
  registry_exact_iff Int.ofNat [.accept 1, .accept 2, .disconnect 2] (by decide)

/-- Two clients connect and the first one leaves: the table keeps the freed client and loses
the one that is still connected. -/
theorem registry_loses_client :
    Each (regStep Int.ofNat) (Admissible Int.ofNat) RegState.init
        [.accept 1, .accept 2, .disconnect 1] ∧
      ¬ Always (regStep Int.ofNat) Exact RegState.init
        [.accept 1, .accept 2, .disconnect 1] := by
  refine ⟨by decide, ?_⟩
  rintro ⟨-, -, -, -, h⟩
  exact absurd ((h 1).mp (by decide)) (by decide)

/-! ## 5. When the counter and the indices stay inside the table -/

/-- The counter is in range, and so are the indices of the last operation. -/
def InBounds (s : RegState) : Prop :=
  0 ≤ s.reg.clntCnt ∧ s.reg.clntCnt ≤ maxClnt ∧ ∀ k ∈ s.touched, k < maxClnt

instance (s : RegState) : Decidable (InBounds s) :=
  inferInstanceAs (Decidable (_ ∧ _ ∧ _))

/-- The table is not full; or it is, and a client leaves whose socket the search does not
find before the last slot. -/
def HasRoom (sockOf : Addr → Int) (s : RegState) : RegOp → Prop
  | .accept _ => s.reg.clntCnt < maxClnt
  | .disconnect c => ∀ i, s.reg.findSock sockOf (sockOf c) = some i →
      (i + 1 : Int) < s.reg.clntCnt → s.reg.clntCnt < maxClnt

/-- The invariant behind the bounds: the counter counts the connected clients, whatever the
slots hold. -/
structure Counted (s : RegState) : Prop where
  cnt_eq : s.reg.clntCnt = s.connected.length
  inBounds : InBounds s

theorem mem_removeTouched {r : Registry} {sock k : Int} :
    k ∈ r.removeTouched sockOf sock ↔ ∃ i, r.findSock sockOf sock = some i ∧
      (i : Int) < k ∧ k ≤ r.clntCnt ∧ (i : Int) < r.clntCnt - 1 := by
  unfold Registry.removeTouched
  cases hf : r.findSock sockOf sock with
  | none => simp
  | some i =>
    simp only [Option.some.injEq, exists_eq_left']
    exact Registry.mem_shiftLoop_touched _ _ _ _ (by omega) k

theorem Counted.step (h : Counted s) {op : RegOp} (ha : Possible s op)
    (hr : HasRoom sockOf s op) : Counted (regStep sockOf s op) := by
  obtain ⟨hcnt, h0, hmax, -⟩ := h
  cases op with
  | accept c =>
    have hlt : s.reg.clntCnt < maxClnt := hr
    refine ⟨?_, ?_, ?_, ?_⟩
    · simp only [regStep, Registry.add, List.length_append, List.length_singleton, hcnt]
      push_cast
      rfl
    · simp only [regStep, Registry.add]
      omega
    · simp only [regStep, Registry.add]
      omega
    · intro k hk
      simp only [regStep, List.mem_singleton] at hk
      omega
  | disconnect c =>
    have hmem : c ∈ s.connected := ha
    have hlen : (s.connected.erase c).length = s.connected.length - 1 :=
      List.length_erase_of_mem hmem
    have hpos : 0 < s.connected.length := List.length_pos_of_mem hmem
    refine ⟨?_, ?_, ?_, ?_⟩
    · simp only [regStep, Registry.remove, hlen, hcnt]
      omega
    · simp only [regStep, Registry.remove]
      omega
    · simp only [regStep, Registry.remove]
      omega
    · intro k hk
      obtain ⟨i, hf, -, hle, hi⟩ := mem_removeTouched.mp hk
      have hlt : s.reg.clntCnt < maxClnt := hr i hf (by omega)
      omega

/-- Conversely, a step that stays in bounds had room. -/
theorem Counted.hasRoom_of_inBounds {op : RegOp}
    (hb : InBounds (regStep sockOf s op)) : HasRoom sockOf s op := by
  obtain ⟨-, -, ht⟩ := hb
  cases op with
  | accept c => exact ht _ (List.mem_singleton_self _)
  | disconnect c =>
    intro i hf hi
    -- the last iteration reads one slot past those in use
    exact ht _ (mem_removeTouched.mpr ⟨i, hf, by omega, Int.le_refl _, by omega⟩)

/-- Along every run of accepts and disconnects, of any number of clients, the counter stays
between 0 and `maxClnt` and every index at which the accept loop or the shift loop accesses
the table is below `maxClnt`, if and only if each step has room. -/
theorem registry_bounds_iff (sockOf : Addr → Int) (ops : List RegOp)
    (hops : Each (regStep sockOf) Possible RegState.init ops) :
    Always (regStep sockOf) InBounds RegState.init ops ↔
      Each (regStep sockOf) (HasRoom sockOf) RegState.init ops := by
  have h₀ : Counted RegState.init := by
    refine ⟨rfl, Int.le_refl 0, by decide, ?_⟩
    intro k hk
    simp [RegState.init] at hk
  exact always_iff_each Counted.inBounds (fun h ha hr => h.step ha hr)
    (fun _ _ hb => Counted.hasRoom_of_inBounds hb) h₀ hops

theorem registry_bounds_iff_two :
    Always (regStep Int.ofNat) InBounds RegState.init [.accept 1, .disconnect 1] ↔
      Each (regStep Int.ofNat) (HasRoom Int.ofNat) RegState.init
        [.accept 1, .disconnect 1] :=
  registry_bounds_iff Int.ofNat [.accept 1, .disconnect 1] (by decide)

theorem cnt_foldl_accept (cs : List Addr) (s : RegState) :
    ((cs.map RegOp.accept).foldl (regStep sockOf) s).reg.clntCnt =
      s.reg.clntCnt + cs.length := by
  induction cs generalizing s with
  | nil => simp
  | cons c cs ih =>
    simp only [List.map_cons, List.foldl_cons, ih, List.length_cons]
    simp only [regStep, Registry.add]
    push_cast
    omega

theorem each_accept {cs : List Addr} {s : RegState} (hnd : cs.Nodup)
    (hfresh : ∀ c ∈ cs, c ∉ s.connected) :
    Each (regStep sockOf) Possible s (cs.map RegOp.accept) := by
  induction cs generalizing s with
  | nil => trivial
  | cons c cs ih =>
    obtain ⟨hc, hnd'⟩ := List.nodup_cons.mp hnd
    refine ⟨hfresh c List.mem_cons_self, ih hnd' fun d hd => ?_⟩
    simp only [regStep, List.mem_append, List.mem_singleton, not_or]
    exact ⟨hfresh d (List.mem_cons_of_mem _ hd), fun e => hc (e ▸ hd)⟩

/-- One connection more than the table has slots: the last accept writes behind the table. -/
theorem registry_overfull :
    Each (regStep Int.ofNat) Possible RegState.init
        ((List.range (maxClnt + 1)).map .accept) ∧
      ¬ Always (regStep Int.ofNat) InBounds RegState.init
        ((List.range (maxClnt + 1)).map .accept) := by
  refine ⟨each_accept List.nodup_range (by simp [RegState.init]), fun h => ?_⟩
  have hmax := h.last.2.1
  rw [cnt_foldl_accept, List.length_range] at hmax
  exact absurd hmax (by decide)

end PosixLab.Chat
