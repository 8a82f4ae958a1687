import Cockroach.Library.RingBuffer
import Cockroach.Storage.MVCC

/-! The reverse iteration of garbage collection, with its window of three entries. -/
namespace Cockroach.GC
open ByteOrder Hlc Storage List Option

/-- The zero value of the window's slots. -/
instance : Inhabited Entry := ⟨.metadata [] .zero⟩

def isValue : Entry → Bool
  | .metadata _ _ => false
  | .version _ _ _ => true

/-- The data of a replica from the last entry to the first. The iterator fails after a number of
entries, if it does. -/
structure ReplicaMVCCDataIterator where
  remaining : List Entry
  failAfter : Option ℕ

namespace ReplicaMVCCDataIterator

/-- The iterator at the end of the last of the key ranges. -/
def atEnd (ranges : List (List Entry)) (failAfter : Option ℕ) : ReplicaMVCCDataIterator :=
  ⟨ranges.flatten.reverse, failAfter⟩

/-- The entry at the iterator, or whether an error ended the iteration. -/
def valid (it : ReplicaMVCCDataIterator) : Entry ⊕ Bool :=
  if it.failAfter = some 0 then .inr true
  else
    match it.remaining with
    | [] => .inr false
    | e :: _ => .inl e

def prev (it : ReplicaMVCCDataIterator) : ReplicaMVCCDataIterator :=
  ⟨it.remaining.tail, it.failAfter.map (· - 1)⟩

/-- What the iterator still delivers. -/
def delivers (it : ReplicaMVCCDataIterator) : List Entry :=
  match it.failAfter with
  | none => it.remaining
  | some n => it.remaining.take n

/-- Whether the iteration ends with an error. -/
def fails (it : ReplicaMVCCDataIterator) : Bool :=
  match it.failAfter with
  | none => false
  | some n => n ≤ it.remaining.length

theorem valid_eq (it : ReplicaMVCCDataIterator) : (it.delivers = [] ∧ it.valid = .inr it.fails) ∨
      ∃ e, it.valid = .inl e ∧ it.delivers = e :: it.prev.delivers ∧ it.prev.fails = it.fails := by
  obtain ⟨remaining, failAfter⟩ := it
  rcases failAfter with _ | n
  · cases remaining with
    | nil => exact .inl ⟨rfl, rfl⟩
    | cons e l => exact .inr ⟨e, rfl, rfl, rfl⟩
  · cases n with
    | zero => exact .inl ⟨by simp [delivers], by simp [valid, fails]⟩
    | succ n =>
      cases remaining with
      | nil => exact .inl ⟨by simp [delivers], by simp [valid, fails]⟩
      | cons e l => exact .inr ⟨e, by simp [valid], by simp [delivers, prev], by simp [fails, prev]⟩

end ReplicaMVCCDataIterator

def gcIteratorRingBufSize : ℕ := 3

instance : NeZero gcIteratorRingBufSize := ⟨by decide⟩

structure GCIterator where
  it : ReplicaMVCCDataIterator
  done : Bool
  err : Bool
  buf : RingBuffer gcIteratorRingBufSize Entry

structure GCIteratorState where
  cur : Entry
  next : Option Entry
  afterNext : Option Entry

namespace GCIteratorState

/-- The current entry is the newest committed version of its key. -/
def curIsNewest (s : GCIteratorState) : Bool :=
  isValue s.cur && (s.next.isNone || s.afterNext.any fun e => !isValue e)

def curIsNotValue (s : GCIteratorState) : Bool := !isValue s.cur

def curIsIntent (s : GCIteratorState) : Bool := s.next.any fun e => !isValue e

end GCIteratorState

namespace GCIterator

def makeGCIterator (ranges : List (List Entry)) (failAfter : Option ℕ) : GCIterator :=
  ⟨.atEnd ranges failAfter, false, false, .empty⟩

/-- The loop of `fillTo`, which has this many entries to add. There is no result where the buffer
would panic. -/
def fill : ℕ → GCIterator → Option (Bool × GCIterator)
  | 0, it => some (true, it)
  | missing + 1, it =>
    match it.it.valid with
    | .inr err => some (false, { it with err := err, done := !err })
    | .inl e =>
      match it.buf.pushBack e with
      | none => none
      | some buf => fill missing { it with buf := buf, it := it.it.prev }

def fillTo (targetLen : ℕ) (it : GCIterator) : Option (Bool × GCIterator) :=
  fill (targetLen - it.buf.len) it

def peekAt (i : ℕ) (it : GCIterator) : Option (Option Entry × GCIterator) := do
  let (ok, it) ← if it.buf.len ≤ i then it.fillTo (i + 1) else some (true, it)
  if ok then
    let e ← it.buf.at? i
    pure (some e, it)
  else pure (none, it)

/-- The current entry and up to two newer entries of the same key. -/
def state (it : GCIterator) : Option (Option GCIteratorState × GCIterator) := do
  let (cur?, it) ← it.peekAt 0
  match cur? with
  | none => pure (none, it)
  | some cur =>
    let (next?, it) ← it.peekAt 1
    match next? with
    | none => pure (if it.err then none else some ⟨cur, none, none⟩, it)
    | some next =>
      if next.key ≠ cur.key then pure (some ⟨cur, none, none⟩, it)
      else
        let (afterNext?, it) ← it.peekAt 2
        match afterNext? with
        | none => pure (if it.err then none else some ⟨cur, some next, none⟩, it)
        | some afterNext =>
          pure (some ⟨cur, some next, if afterNext.key = cur.key then some afterNext else none⟩, it)

def step (it : GCIterator) : Option GCIterator :=
  it.buf.removeFront.map fun buf => { it with buf := buf }

/-- What the iterator goes through from here on. -/
def pending (it : GCIterator) : List Entry := it.buf.toList ++ it.it.delivers

theorem fill_eq (missing : ℕ) (it : GCIterator)
    (hlen : it.buf.len + missing ≤ gcIteratorRingBufSize) :
    ∃ ok it', it.fill missing = some (ok, it') ∧ it'.pending = it.pending ∧
      it'.it.fails = it.it.fails ∧ it.buf.len ≤ it'.buf.len ∧
      (ok = true → it'.buf.len = it.buf.len + missing) ∧
      (ok = false → it'.pending.length < it.buf.len + missing ∧ it'.err = it.it.fails) := by
  induction missing generalizing it with
  | zero => exact ⟨true, it, rfl, rfl, rfl, le_rfl, by simp, by simp⟩
  | succ missing ih =>
    unfold fill
    rcases it.it.valid_eq with ⟨hend, hvalid⟩ | ⟨e, hvalid, hdelivers, hfails⟩
    · rw [hvalid]
      refine ⟨false, _, rfl, rfl, rfl, le_rfl, by simp, fun _ => ⟨?_, rfl⟩⟩
      simp only [pending, hend, append_nil, RingBuffer.length_toList]
      omega
    · rw [hvalid]
      obtain ⟨buf, hbuf⟩ := RingBuffer.exists_pushBack (b := it.buf) (by omega) e
      have hlist := RingBuffer.toList_pushBack hbuf
      have hbuflen : buf.len = it.buf.len + 1 := by
        have := congrArg List.length hlist
        simpa using this
      dsimp only
      rw [hbuf]
      obtain ⟨ok, it', hfill, hpending, hfails', hle, hok, hfail⟩ :=
        ih { it with buf := buf, it := it.it.prev } (by rw [hbuflen]; omega)
      change buf.len ≤ it'.buf.len at hle
      refine ⟨ok, it', hfill, ?_, hfails'.trans hfails, by omega, ?_, ?_⟩
      · rw [hpending, pending, pending, hlist, hdelivers, append_assoc, singleton_append]
      · intro h
        rw [hok h, hbuflen]
        omega
      · intro h
        obtain ⟨hlt, herr⟩ := hfail h
        rw [hbuflen] at hlt
        exact ⟨by omega, herr.trans hfails⟩

theorem peekAt_eq {i : ℕ} (it : GCIterator) (hi : i < gcIteratorRingBufSize) :
    ∃ it', it.peekAt i = some (it.pending[i]?, it') ∧ it'.pending = it.pending ∧
      it'.it.fails = it.it.fails ∧ (it.pending[i]? = none → it'.err = it.it.fails) ∧
      (it.pending[i]? ≠ none → i < it'.buf.len) ∧ it.buf.len ≤ it'.buf.len := by
  unfold peekAt
  by_cases hlen : it.buf.len ≤ i
  · obtain ⟨ok, it', hfill, hpending, hfails, hle, hok, hfail⟩ :=
      fill_eq (i + 1 - it.buf.len) it (by omega)
    rw [if_pos hlen, fillTo, hfill]
    cases ok with
    | true =>
      have hlen' : it'.buf.len = i + 1 := by
        rw [hok rfl]
        omega
      have hat : it'.buf.at? i = it.pending[i]? := by
        rw [RingBuffer.at?_eq, ← hpending, pending, getElem?_append_left (by simp [hlen'])]
      have hsome : ∃ e, it'.buf.at? i = some e := by
        unfold RingBuffer.at?
        rw [if_pos (by omega)]
        exact ⟨_, rfl⟩
      obtain ⟨e, he⟩ := hsome
      refine ⟨it', ?_, hpending, hfails, ?_, fun _ => by omega, by omega⟩
      · rw [← hat]
        simp [he]
      · rw [← hat, he]
        intro h
        cases h
    | false =>
      obtain ⟨hlt, herr⟩ := hfail rfl
      have hnone : it.pending[i]? = none := by
        rw [← hpending]
        exact getElem?_eq_none (by omega)
      refine ⟨it', ?_, hpending, hfails, fun _ => herr, fun h => absurd hnone h, hle⟩
      rw [hnone]
      simp
  · have hat : it.buf.at? i = it.pending[i]? := by
      rw [RingBuffer.at?_eq, pending, getElem?_append_left (by simp; omega)]
    have hsome : ∃ e, it.buf.at? i = some e := by
      unfold RingBuffer.at?
      rw [if_pos (by omega)]
      exact ⟨_, rfl⟩
    obtain ⟨e, he⟩ := hsome
    rw [if_neg hlen]
    refine ⟨it, ?_, rfl, rfl, ?_, fun _ => by omega, le_rfl⟩
    · rw [← hat]
      simp [he]
    · rw [← hat, he]
      intro h
      cases h

/-- The state as it follows from what is to come. -/
def windowOf (fails : Bool) : List Entry → Option GCIteratorState
  | [] => none
  | [cur] => if fails then none else some ⟨cur, none, none⟩
  | cur :: next :: rest =>
    if next.key ≠ cur.key then some ⟨cur, none, none⟩
    else
      match rest with
      | [] => if fails then none else some ⟨cur, some next, none⟩
      | afterNext :: _ =>
        some ⟨cur, some next, if afterNext.key = cur.key then some afterNext else none⟩

theorem state_eq (it : GCIterator) :
    ∃ it', it.state = some (windowOf it.it.fails it.pending, it') ∧ it'.pending = it.pending ∧
      it'.it.fails = it.it.fails ∧ (it.pending ≠ [] → 0 < it'.buf.len) ∧
      (windowOf it.it.fails it.pending = none → it'.err = it.it.fails) := by
  unfold state
  obtain ⟨it₀, h₀, hp₀, hf₀, herr₀, hlen₀, -⟩ := it.peekAt_eq (i := 0) (by decide)
  rw [h₀]
  cases hpending : it.pending with
  | nil =>
    rw [hpending] at herr₀
    exact ⟨it₀, rfl, hp₀.trans hpending, hf₀, by simp, fun _ => herr₀ rfl⟩
  | cons cur l =>
    rw [hpending] at hlen₀
    have hpos₀ : 0 < it₀.buf.len := hlen₀ (by simp)
    obtain ⟨it₁, h₁, hp₁, hf₁, herr₁, -, hle₁⟩ := it₀.peekAt_eq (i := 1) (by decide)
    rw [hp₀, hpending] at h₁ herr₁ hp₁
    simp only [getElem?_cons_zero, bind_eq_bind, bind_some]
    rw [h₁]
    cases l with
    | nil =>
      have herr : it₁.err = it.it.fails := (herr₁ rfl).trans hf₀
      refine ⟨it₁, ?_, hp₁, hf₁.trans hf₀, fun _ => by omega, fun _ => herr⟩
      simp only [getElem?_cons_succ, getElem?_nil, bind_some, windowOf]
      rw [herr]
      rfl
    | cons next rest =>
      simp only [getElem?_cons_succ, getElem?_cons_zero, bind_some, windowOf]
      by_cases hkey : next.key ≠ cur.key
      · refine ⟨it₁, ?_, hp₁, hf₁.trans hf₀, fun _ => by omega, ?_⟩
        · rw [if_pos hkey, if_pos hkey]
          rfl
        · rw [if_pos hkey]
          intro h
          cases h
      · rw [if_neg hkey, if_neg hkey]
        obtain ⟨it₂, h₂, hp₂, hf₂, herr₂, -, hle₂⟩ := it₁.peekAt_eq (i := 2) (by decide)
        rw [hp₁] at h₂ herr₂ hp₂
        rw [h₂]
        refine ⟨it₂, ?_, hp₂, (hf₂.trans hf₁).trans hf₀, fun _ => by omega, ?_⟩
        · cases rest with
          | nil =>
            simp only [getElem?_cons_succ, getElem?_nil, bind_some]
            rw [herr₂ rfl, hf₁, hf₀]
            rfl
          | cons afterNext rest => rfl
        · cases rest with
          | nil => exact fun _ => ((herr₂ rfl).trans hf₁).trans hf₀
          | cons afterNext rest =>
            intro h
            cases h

theorem step_eq {it : GCIterator} (hlen : 0 < it.buf.len) :
    ∃ it', it.step = some it' ∧ it'.pending = it.pending.tail ∧ it'.it.fails = it.it.fails := by
  obtain ⟨buf, hbuf⟩ := RingBuffer.exists_removeFront hlen
  refine ⟨{ it with buf := buf }, by rw [step, hbuf]; rfl, ?_, rfl⟩
  simp [pending, RingBuffer.toList_removeFront hbuf]

end GCIterator

end Cockroach.GC
