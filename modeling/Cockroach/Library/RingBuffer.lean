import Mathlib

/-! Queues of bounded length in a circular buffer. -/

/-- A buffer of `n` slots, of which `len` are in use from `head` on. -/
structure RingBuffer (n : ℕ) (α : Type*) where
  buf : Fin n → α
  len : ℕ
  head : ℕ
  len_le : len ≤ n
  head_lt : head < n

namespace RingBuffer
open List

variable {n : ℕ} {α : Type*}

def slot (b : RingBuffer n α) (i : ℕ) : Fin n :=
  ⟨(b.head + i) % n, Nat.mod_lt _ (Nat.zero_lt_of_lt b.head_lt)⟩

def empty [NeZero n] [Inhabited α] : RingBuffer n α :=
  ⟨fun _ => default, 0, 0, Nat.zero_le n, NeZero.pos n⟩

/-- The element at a position of the queue, if the position is in use. -/
def at? (b : RingBuffer n α) (i : ℕ) : Option α :=
  if i < b.len then some (b.buf (b.slot i)) else none

def removeFront [Inhabited α] (b : RingBuffer n α) : Option (RingBuffer n α) :=
  if 0 < b.len then
    some {
      buf := Function.update b.buf (b.slot 0) default
      len := b.len - 1
      head := (b.head + 1) % n
      len_le := (Nat.sub_le _ _).trans b.len_le
      head_lt := Nat.mod_lt _ (Nat.zero_lt_of_lt b.head_lt) }
  else none

/-- Add an element at the end, if the buffer is not full. -/
def pushBack (b : RingBuffer n α) (a : α) : Option (RingBuffer n α) :=
  if h : b.len < n then
    some { b with buf := Function.update b.buf (b.slot b.len) a, len := b.len + 1, len_le := h }
  else none

/-- The elements of the queue in order. -/
def toList (b : RingBuffer n α) : List α := (List.range b.len).map fun i => b.buf (b.slot i)

@[simp] theorem length_toList (b : RingBuffer n α) : b.toList.length = b.len := by
  simp [toList]

theorem at?_eq (b : RingBuffer n α) (i : ℕ) : b.at? i = b.toList[i]? := by
  unfold at? toList
  split_ifs with hi
  · simp [hi]
  · simp [hi]

theorem slot_ne (b : RingBuffer n α) {i j : ℕ} (hij : i < j) (hj : j < i + n) :
    b.slot i ≠ b.slot j := by
  intro h
  have hmod : (b.head + i) ≡ (b.head + j) [MOD n] := Fin.val_eq_of_eq h
  have hdvd : n ∣ j - i := by
    have := (Nat.modEq_iff_dvd' (by omega)).mp hmod
    rwa [Nat.add_sub_add_left] at this
  exact absurd (Nat.le_of_dvd (by omega) hdvd) (by omega)

variable {b b' : RingBuffer n α}

theorem toList_pushBack {a : α} (h : b.pushBack a = some b') : b'.toList = b.toList ++ [a] := by
  unfold pushBack at h
  split_ifs at h with hlt
  obtain rfl := Option.some.inj h
  unfold toList
  rw [range_succ, map_append]
  congr 1
  · refine map_congr_left fun i hi => ?_
    have hi' : i < b.len := mem_range.mp hi
    exact Function.update_of_ne (b.slot_ne hi' (by omega)) _ _
  · exact congrArg (fun x => [x]) (Function.update_self _ _ _)

theorem toList_removeFront [Inhabited α] (h : b.removeFront = some b') :
    b.toList = b.buf (b.slot 0) :: b'.toList := by
  unfold removeFront at h
  split_ifs at h with hpos
  obtain rfl := Option.some.inj h
  have hle := b.len_le
  have hrange : List.range b.len = 0 :: (List.range (b.len - 1)).map Nat.succ := by
    rw [← range_succ_eq_map, Nat.sub_add_cancel hpos]
  unfold toList
  rw [hrange, map_cons, map_map]
  refine congrArg _ (map_congr_left fun i hi => ?_)
  have hi' : i < b.len - 1 := mem_range.mp hi
  -- The slots move by one place with the head.
  have hslot : (⟨(((b.head + 1) % n) + i) % n, Nat.mod_lt _ (Nat.zero_lt_of_lt b.head_lt)⟩ :
      Fin n) =
      b.slot (i + 1) := by
    refine Fin.ext ?_
    change (((b.head + 1) % n) + i) % n = (b.head + (i + 1)) % n
    rw [Nat.mod_add_mod]
    congr 1
    omega
  change b.buf (b.slot (i + 1)) = Function.update b.buf (b.slot 0) default ⟨_, _⟩
  rw [hslot, Function.update_of_ne (b.slot_ne (by omega) (by omega)).symm]

theorem exists_pushBack (h : b.len < n) (a : α) : ∃ b', b.pushBack a = some b' := by
  unfold pushBack
  rw [dif_pos h]
  exact ⟨_, rfl⟩

theorem exists_removeFront [Inhabited α] (h : 0 < b.len) : ∃ b', b.removeFront = some b' := by
  unfold removeFront
  rw [if_pos h]
  exact ⟨_, rfl⟩

end RingBuffer
