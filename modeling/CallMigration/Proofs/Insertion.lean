import CallMigration.Proofs.Correspondence
import Mathlib.Order.Monotone.Basic

/-!
# Offsets behind insertions

Bytes that are put into a text move everything behind them. What starts at the place of an insertion
moves, and what ends there stays; so starts and ends of elements are moved by two functions, and both
keep the order of offsets.

* `Insertion.addedBytes` : the bytes that are put in at certain offsets.
* `Insertion.moveStart`, `Insertion.moveStop` : where an element starts and ends afterwards.
* `Insertion.Located` : elements that have all their insertions inside.
* `Correspondence.ofInsertions` : the correspondence of the spans of two units.
-/

namespace CallMigration

/-- Bytes that are put into a text: where, and how many. -/
structure Insertion where
  offset : Nat
  bytes : Nat

namespace Insertion

/-- The number of bytes that are put in at the offsets that satisfy `p`. -/
def addedBytes (p : Nat → Bool) : List Insertion → Nat
  | [] => 0
  | i :: is => (if p i.offset then i.bytes else 0) + addedBytes p is

/-- The number of all bytes that are put in. -/
def total (is : List Insertion) : Nat :=
  addedBytes (fun _ => true) is

section

variable {p q : Nat → Bool} {is js : List Insertion}

theorem addedBytes_append (p : Nat → Bool) (is js : List Insertion) :
    addedBytes p (is ++ js) = addedBytes p is + addedBytes p js := by
  induction is with
  | nil => rw [List.nil_append, addedBytes, Nat.zero_add]
  | cons i is ih => rw [List.cons_append, addedBytes, addedBytes, ih, Nat.add_assoc]

theorem addedBytes_congr (h : ∀ i ∈ is, p i.offset = q i.offset) :
    addedBytes p is = addedBytes q is := by
  induction is with
  | nil => rfl
  | cons i is ih =>
    rw [addedBytes, addedBytes, h i List.mem_cons_self,
      ih fun j hj => h j (List.mem_cons_of_mem _ hj)]

theorem addedBytes_eq_total (h : ∀ i ∈ is, p i.offset = true) : addedBytes p is = total is :=
  addedBytes_congr h

theorem addedBytes_eq_zero (h : ∀ i ∈ is, p i.offset = false) : addedBytes p is = 0 := by
  induction is with
  | nil => rfl
  | cons i is ih =>
    rw [addedBytes, h i List.mem_cons_self, ih fun j hj => h j (List.mem_cons_of_mem _ hj)]
    rfl

theorem addedBytes_mono (h : ∀ x, p x = true → q x = true) (is : List Insertion) :
    addedBytes p is ≤ addedBytes q is := by
  induction is with
  | nil => exact Nat.le_refl _
  | cons i is ih =>
    rw [addedBytes, addedBytes]
    refine Nat.add_le_add ?_ ih
    by_cases hp : p i.offset = true
    · rw [if_pos hp, if_pos (h _ hp)]
    · rw [if_neg hp]
      exact Nat.zero_le _

/-- An insertion that only the second condition counts makes a difference. -/
theorem addedBytes_add_le (h : ∀ x, p x = true → q x = true) {i : Insertion} (hi : i ∈ is)
    (hp : p i.offset = false) (hq : q i.offset = true) :
    addedBytes p is + i.bytes ≤ addedBytes q is := by
  obtain ⟨before, after, rfl⟩ := List.append_of_mem hi
  have hbefore := addedBytes_mono h before
  have hafter := addedBytes_mono h after
  simp only [addedBytes_append, addedBytes, hp, hq, if_true, Bool.false_eq_true, if_false]
  omega

theorem total_append (is js : List Insertion) : total (is ++ js) = total is + total js :=
  addedBytes_append _ is js

theorem total_cons (offset bytes : Nat) (is : List Insertion) :
    total (⟨offset, bytes⟩ :: is) = bytes + total is :=
  rfl

end

/-! ## Moved offsets -/

def moveStart (is : List Insertion) (x : Nat) : Nat :=
  x + addedBytes (fun offset => offset ≤ x) is

/-- Where an element ends afterwards that ends at `x`. -/
def moveStop (is : List Insertion) (x : Nat) : Nat :=
  x + addedBytes (fun offset => offset < x) is

theorem moveStart_strictMono (is : List Insertion) : StrictMono (moveStart is) := by
  intro x y hxy
  have hmono : addedBytes (fun offset => offset ≤ x) is ≤ addedBytes (fun offset => offset ≤ y) is := by
    refine addedBytes_mono ?_ is
    simp only [decide_eq_true_eq]
    omega
  unfold moveStart
  omega

theorem moveStop_strictMono (is : List Insertion) : StrictMono (moveStop is) := by
  intro x y hxy
  have hmono : addedBytes (fun offset => offset < x) is ≤ addedBytes (fun offset => offset < y) is := by
    refine addedBytes_mono ?_ is
    simp only [decide_eq_true_eq]
    omega
  unfold moveStop
  omega

theorem moveStart_lt_of_mem {is : List Insertion} {i : Insertion} (hi : i ∈ is) {x : Nat}
    (hx : x < i.offset) : moveStart is x + i.bytes < moveStart is i.offset := by
  have hadded : addedBytes (fun offset => offset ≤ x) is + i.bytes ≤
      addedBytes (fun offset => offset ≤ i.offset) is := by
    refine addedBytes_add_le ?_ hi ?_ ?_
    · simp only [decide_eq_true_eq]
      omega
    · simpa using hx
    · simp
  unfold moveStart
  omega

theorem ne_moveStart_of_mem {is : List Insertion} {i : Insertion} (hi : i ∈ is) {x y : Nat}
    (hlow : moveStart is i.offset ≤ y + i.bytes) (hhigh : y < moveStart is i.offset) :
    moveStart is x ≠ y := by
  intro heq
  by_cases hx : x < i.offset
  · have hlt := moveStart_lt_of_mem hi hx
    omega
  · have hle := (moveStart_strictMono is).monotone (Nat.not_lt.mp hx)
    omega

/-! ## Elements and the insertions in them -/

/-- Among all insertions, those in the text from `start` to `stop` are `inner`; the text starts at
`start'` afterwards. -/
def Located (is inner : List Insertion) (start stop start' : Nat) : Prop :=
  ∃ before after, is = before ++ inner ++ after ∧ (∀ i ∈ before, i.offset ≤ start) ∧
    (∀ i ∈ after, stop ≤ i.offset) ∧ start' = start + total before

namespace Located

variable {is inner : List Insertion} {start stop start' : Nat}

theorem moveStart_eq (h : Located is inner start stop start') (hpos : start < stop)
    (hinner : ∀ i ∈ inner, start < i.offset) : moveStart is start = start' := by
  obtain ⟨before, after, rfl, hbefore, hafter, rfl⟩ := h
  have h₁ : addedBytes (fun offset => offset ≤ start) before = total before :=
    addedBytes_eq_total fun i hi => by simpa using hbefore i hi
  have h₂ : addedBytes (fun offset => offset ≤ start) inner = 0 :=
    addedBytes_eq_zero fun i hi => by simpa using hinner i hi
  have h₃ : addedBytes (fun offset => offset ≤ start) after = 0 := by
    refine addedBytes_eq_zero fun i hi => ?_
    have hstop := hafter i hi
    simp only [decide_eq_false_iff_not]
    omega
  rw [moveStart, addedBytes_append, addedBytes_append, h₁, h₂, h₃]
  omega

theorem moveStop_eq (h : Located is inner start stop start') (hpos : start < stop)
    (hinner : ∀ i ∈ inner, i.offset < stop) :
    moveStop is stop = start' + (stop - start) + total inner := by
  obtain ⟨before, after, rfl, hbefore, hafter, rfl⟩ := h
  have h₁ : addedBytes (fun offset => offset < stop) before = total before := by
    refine addedBytes_eq_total fun i hi => ?_
    have hstart := hbefore i hi
    simp only [decide_eq_true_eq]
    omega
  have h₂ : addedBytes (fun offset => offset < stop) inner = total inner :=
    addedBytes_eq_total fun i hi => by simpa using hinner i hi
  have h₃ : addedBytes (fun offset => offset < stop) after = 0 := by
    refine addedBytes_eq_zero fun i hi => ?_
    have hstop := hafter i hi
    simp only [decide_eq_false_iff_not]
    omega
  rw [moveStop, addedBytes_append, addedBytes_append, h₁, h₂, h₃]
  omega

theorem split {left right : List Insertion} {middle : Nat}
    (h : Located is (left ++ right) start stop start') (hstart : start ≤ middle)
    (hstop : middle ≤ stop) (hleft : ∀ i ∈ left, i.offset ≤ middle)
    (hright : ∀ i ∈ right, middle ≤ i.offset) :
    Located is left start middle start' ∧
      Located is right middle stop (start' + (middle - start) + total left) := by
  obtain ⟨before, after, rfl, hbefore, hafter, rfl⟩ := h
  refine ⟨⟨before, right ++ after, by simp, hbefore, ?_, rfl⟩, before ++ left, after, by simp, ?_,
    hafter, ?_⟩
  · intro i hi
    rcases List.mem_append.mp hi with hi | hi
    · exact hright i hi
    · exact hstop.trans (hafter i hi)
  · intro i hi
    rcases List.mem_append.mp hi with hi | hi
    · exact (hbefore i hi).trans hstart
    · exact hleft i hi
  · rw [total_append]
    omega

end Located

end Insertion

/-! ## Spans behind insertions -/

namespace Correspondence

open Insertion

/-- The correspondence of a unit and the unit with insertions. The two roots belong together whatever
is inserted; every other node is moved. -/
def ofInsertions (is : List Insertion) (size size' : Nat) : Correspondence where
  spans a a' := (a = ⟨.program, 0, size⟩ ∧ a' = ⟨.program, 0, size'⟩) ∨
    (a.kind ≠ .program ∧ a' = ⟨a.kind, moveStart is a.start, moveStop is a.stop⟩)
  offsets a a' := a' = moveStart is a
  uses a a' := a' = moveStart is a
  spans_kind := by
    rintro a a' (⟨rfl, rfl⟩ | ⟨-, rfl⟩) <;> rfl
  offsets_iff := by
    rintro a a' b b' rfl rfl
    exact (moveStart_strictMono is).le_iff_le.symm

variable {is : List Insertion} {size size' : Nat}

theorem alone_ofInsertions (a : Span) : (ofInsertions is size size').Alone a := by
  rintro a' b b' (⟨rfl, rfl⟩ | ⟨ha, rfl⟩) (⟨rfl, rfl⟩ | ⟨hb, rfl⟩)
  · exact iff_of_true rfl rfl
  · constructor <;> intro heq
    · exact absurd (congrArg Span.kind heq).symm hb
    · exact absurd (congrArg Span.kind heq).symm hb
  · constructor <;> intro heq
    · exact absurd (congrArg Span.kind heq) ha
    · exact absurd (congrArg Span.kind heq) ha
  · obtain ⟨k, start, stop⟩ := a
    obtain ⟨k', start', stop'⟩ := b
    simp only [Span.mk.injEq, (moveStart_strictMono is).injective.eq_iff,
      (moveStop_strictMono is).injective.eq_iff]

theorem spans_root : (ofInsertions is size size').spans ⟨.program, 0, size⟩ ⟨.program, 0, size'⟩ :=
  .inl ⟨rfl, rfl⟩

theorem fresh_of_mem {i : Insertion} (hi : i ∈ is) {b : Span}
    (hlow : moveStart is i.offset ≤ b.start + i.bytes) (hhigh : b.start < moveStart is i.offset)
    (hkind : b.kind ≠ .program) (howns : Declaration.ownsPatterns b.kind = false) :
    (ofInsertions is size size').Fresh b := by
  refine ⟨?_, howns⟩
  rintro a (⟨-, rfl⟩ | ⟨-, rfl⟩)
  · exact hkind rfl
  · exact ne_moveStart_of_mem hi hlow hhigh rfl

end Correspondence

end CallMigration
