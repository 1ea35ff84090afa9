import CallMigration.Proofs.Tables
import Mathlib.Algebra.GroupWithZero.Nat
import Mathlib.Algebra.BigOperators.Group.List.Basic
import Mathlib.Logic.Relation

/-!
# Searching the supertypes of a type

Both questions asked of a table are searches of one kind. Names wait in a queue; a name that was met
before is passed over, and behind any other name its declared supertypes join the queue, unless the
search ends there with an answer. Supertypes may run in circles, and the queue may hold a name many
times; still the search comes to an end, since each name is expanded once.

* `TypeTable.Climb` : so many steps from a type to a declared supertype.
* `TypeTable.Search` : the search as a loop without a bound, which is left at the first answer.
* `TypeTable.search_ancestry` : the loop ends, with the first answer that `ancestry` meets.
* `Frontier` : what holds of the queue and of the names met before, distance by distance.
* `Search.nearest` : the answer of a search is that of a nearest type that has one.
* `TypeTable.isSubtype_iff_transGen`, `TypeTable.returnType?_nearest` : the two questions.
-/

namespace CallMigration

namespace TypeTable

variable {α : Type}

/-! ## Steps to supertypes -/

/-- `sup` is a declared supertype of `sub`. -/
def Extends (table : TypeTable) (sub sup : TypeName) : Prop :=
  sup ∈ table.supertypesOf sub

/-- From `sub` to a type in exactly so many steps to a declared supertype. -/
inductive Climb (table : TypeTable) (sub : TypeName) : Nat → TypeName → Prop
  | here : Climb table sub 0 sub
  | step {n : Nat} {t sup : TypeName} :
      Climb table sub n t → table.Extends t sup → Climb table sub (n + 1) sup

theorem reflTransGen_iff_climb {table : TypeTable} {sub sup : TypeName} :
    Relation.ReflTransGen table.Extends sub sup ↔ ∃ n, table.Climb sub n sup := by
  constructor
  · intro h
    induction h with
    | refl => exact ⟨0, .here⟩
    | tail _ hstep ih =>
      obtain ⟨n, hclimb⟩ := ih
      exact ⟨n + 1, hclimb.step hstep⟩
  · rintro ⟨n, h⟩
    induction h with
    | here => exact .refl
    | step _ hstep ih => exact ih.tail hstep

/-! ## The search and its end -/

/-- A search from a queue of names, `seen` being the names met before. It is left at the first name
for which there is an answer, and without an answer when the queue is empty. -/
inductive Search (table : TypeTable) (answer? : TypeName → Option α) :
    List TypeName → List TypeName → Option α → Prop
  | exhausted {seen : List TypeName} : Search table answer? [] seen none
  | passed {name : TypeName} {queue seen : List TypeName} {result : Option α} :
      name ∈ seen → Search table answer? queue seen result →
      Search table answer? (name :: queue) seen result
  | answered {name : TypeName} {queue seen : List TypeName} {a : α} :
      name ∉ seen → answer? name = some a → Search table answer? (name :: queue) seen (some a)
  | expanded {name : TypeName} {queue seen : List TypeName} {result : Option α} :
      name ∉ seen → answer? name = none →
      Search table answer? (queue ++ table.supertypesOf name) (seen ++ [name]) result →
      Search table answer? (name :: queue) seen result

/-- The number of supertypes that the entries of a list declare, those of the names in `seen` apart. -/
def unexplored (seen : List TypeName) (types : List TypeInfo) : Nat :=
  ((types.filter fun info => !seen.contains info.name).map fun info => info.supertypes.length).sum

theorem unexplored_cons (seen : List TypeName) (info : TypeInfo) (types : List TypeInfo) :
    unexplored seen (info :: types) =
      (if info.name ∈ seen then 0 else info.supertypes.length) + unexplored seen types := by
  unfold unexplored
  by_cases h : info.name ∈ seen <;> simp [h]

/-- What a name adds to the queue is taken from what is left to explore. -/
theorem unexplored_concat {name : TypeName} {seen : List TypeName} (hnew : name ∉ seen)
    (types : List TypeInfo) :
    (((types.find? fun info => info.name == name).map (·.supertypes.length)).getD 0) +
      unexplored (seen ++ [name]) types ≤ unexplored seen types := by
  induction types with
  | nil => simp [unexplored]
  | cons info types ih =>
    rw [unexplored_cons, unexplored_cons]
    by_cases hname : info.name = name
    · simp [hname, hnew]
      omega
    · simp [hname]
      omega

theorem length_supertypesOf (table : TypeTable) (name : TypeName) :
    (table.supertypesOf name).length =
      (((table.types.find? fun info => info.name == name).map (·.supertypes.length)).getD 0) := by
  unfold supertypesOf get?
  cases table.types.find? fun info => info.name == name <;> rfl

theorem unexplored_nil (table : TypeTable) : unexplored [] table.types = table.edgeCount := by
  simp [unexplored, edgeCount, List.sum_eq_foldl, List.foldl_map]

/-- While the rounds are enough for the queue and for what is left to explore, the bounded search
meets the names that the loop meets. -/
theorem search_ascend (table : TypeTable) (answer? : TypeName → Option α) {steps : Nat}
    {queue seen : List TypeName}
    (henough : queue.length + unexplored seen table.types ≤ steps) :
    ∃ found, table.ascend steps queue seen = seen ++ found ∧
      table.Search answer? queue seen (found.findSome? answer?) := by
  induction steps generalizing queue seen with
  | zero =>
    cases queue with
    | nil => exact ⟨[], (List.append_nil seen).symm, .exhausted⟩
    | cons name queue =>
      rw [List.length_cons] at henough
      omega
  | succ steps ih =>
    cases queue with
    | nil => exact ⟨[], (List.append_nil seen).symm, .exhausted⟩
    | cons name queue =>
      rw [List.length_cons] at henough
      rw [ascend]
      by_cases hname : name ∈ seen
      · obtain ⟨found, hascend, hsearch⟩ := @ih queue seen (by omega)
        rw [if_pos (List.contains_iff_mem.mpr hname)]
        exact ⟨found, hascend, .passed hname hsearch⟩
      · have hless := unexplored_concat hname table.types
        rw [← length_supertypesOf] at hless
        obtain ⟨found, hascend, hsearch⟩ :=
          @ih (queue ++ table.supertypesOf name) (seen ++ [name])
            (by rw [List.length_append]; omega)
        rw [if_neg (fun h => hname (List.contains_iff_mem.mp h))]
        refine ⟨name :: found, by rw [hascend, List.append_assoc, List.singleton_append], ?_⟩
        rw [List.findSome?_cons]
        cases hanswer : answer? name with
        | some a => exact .answered hname hanswer
        | none => exact .expanded hname hanswer hsearch

/-- A search from a type ends, with the first answer among the names of `ancestry`. -/
theorem search_ancestry (table : TypeTable) (answer? : TypeName → Option α) (start : TypeName) :
    table.Search answer? [start] [] ((table.ancestry start).findSome? answer?) := by
  have henough : [start].length + unexplored [] table.types ≤ table.edgeCount + 1 := by
    rw [unexplored_nil, List.length_singleton]
    omega
  obtain ⟨found, hascend, hsearch⟩ := table.search_ascend answer? henough
  rw [List.nil_append] at hascend
  rw [ancestry, hascend]
  exact hsearch

/-! ## Distance by distance -/

/-- The middle of a search from `start` without an answer so far: the front of the queue is at distance
`n` and the rest of it one step further, everything nearer has been met, and the supertypes of what
has been met have been met or wait. -/
structure Frontier (table : TypeTable) (answer? : TypeName → Option α) (start : TypeName) (n : Nat)
    (front back seen : List TypeName) : Prop where
  reached : ∀ t ∈ front, table.Climb start n t
  ahead : ∀ t ∈ back, table.Climb start (n + 1) t
  nearer : ∀ m < n, ∀ t, table.Climb start m t → t ∈ seen
  level : ∀ t, table.Climb start n t → t ∈ seen ∨ t ∈ front
  closed : ∀ t ∈ seen, ∀ sup, table.Extends t sup → sup ∈ seen ∨ sup ∈ front ∨ sup ∈ back
  unanswered : ∀ t ∈ seen, answer? t = none

/-- The answer of a type in the least number of steps that leads to a type with an answer; none if no
type that is reached has one. -/
def Nearest (table : TypeTable) (answer? : TypeName → Option α) (start : TypeName) :
    Option α → Prop
  | some a => ∃ t n, table.Climb start n t ∧ answer? t = some a ∧
      ∀ m < n, ∀ t', table.Climb start m t' → answer? t' = none
  | none => ∀ t n, table.Climb start n t → answer? t = none

namespace Frontier

variable {table : TypeTable} {answer? : TypeName → Option α} {start name : TypeName} {n : Nat}
  {front back seen : List TypeName}

theorem root : table.Frontier answer? start 0 [start] [] [] where
  reached t ht := by
    rw [List.mem_singleton.mp ht]
    exact .here
  ahead := by simp
  nearer := by simp
  level t ht := by
    cases ht
    exact .inr (List.mem_singleton_self _)
  closed := by simp
  unanswered := by simp

/-- Behind the last name of a distance begins the next distance. -/
theorem next (h : table.Frontier answer? start n [] back seen) :
    table.Frontier answer? start (n + 1) back [] seen where
  reached := h.ahead
  ahead := by simp
  nearer m hm t ht := by
    rcases Nat.lt_succ_iff_lt_or_eq.mp hm with hm | rfl
    · exact h.nearer m hm t ht
    · simpa using h.level t ht
  level t ht := by
    cases ht with
    | @step _ below _ hclimb hstep =>
      have hseen : below ∈ seen := by simpa using h.level below hclimb
      simpa using h.closed _ hseen t hstep
  closed t ht sup hstep := by simpa using h.closed t ht sup hstep
  unanswered := h.unanswered

/-- The first name of the queue stands at the distance that the search has come to. -/
theorem head {queue : List TypeName} (h : table.Frontier answer? start n front back seen)
    (hqueue : name :: queue = front ++ back) :
    ∃ n' front' back', queue = front' ++ back' ∧
      table.Frontier answer? start n' (name :: front') back' seen := by
  cases front with
  | nil =>
    have hback : back = name :: queue := hqueue.symm
    subst hback
    exact ⟨n + 1, queue, [], (List.append_nil queue).symm, h.next⟩
  | cons first front =>
    rw [List.cons_append] at hqueue
    cases hqueue
    exact ⟨n, front, back, rfl, h⟩

theorem pass (h : table.Frontier answer? start n (name :: front) back seen) (hname : name ∈ seen) :
    table.Frontier answer? start n front back seen where
  reached t ht := h.reached t (List.mem_cons_of_mem name ht)
  ahead := h.ahead
  nearer := h.nearer
  level t ht := by
    rcases h.level t ht with hseen | hfront
    · exact .inl hseen
    · rcases List.mem_cons.mp hfront with rfl | hfront
      · exact .inl hname
      · exact .inr hfront
  closed t ht sup hstep := by
    rcases h.closed t ht sup hstep with hseen | hfront | hback
    · exact .inl hseen
    · rcases List.mem_cons.mp hfront with rfl | hfront
      · exact .inl hname
      · exact .inr (.inl hfront)
    · exact .inr (.inr hback)
  unanswered := h.unanswered

theorem expand (h : table.Frontier answer? start n (name :: front) back seen)
    (hname : answer? name = none) :
    table.Frontier answer? start n front (back ++ table.supertypesOf name) (seen ++ [name]) where
  reached t ht := h.reached t (List.mem_cons_of_mem name ht)
  ahead t ht := by
    rcases List.mem_append.mp ht with hback | hsup
    · exact h.ahead t hback
    · exact (h.reached name List.mem_cons_self).step hsup
  nearer m hm t ht := List.mem_append_left _ (h.nearer m hm t ht)
  level t ht := by
    rcases h.level t ht with hseen | hfront
    · exact .inl (List.mem_append_left _ hseen)
    · rcases List.mem_cons.mp hfront with rfl | hfront
      · exact .inl (List.mem_append_right _ (List.mem_singleton_self t))
      · exact .inr hfront
  closed t ht sup hstep := by
    rcases List.mem_append.mp ht with hseen | hself
    · rcases h.closed t hseen sup hstep with hseen | hfront | hback
      · exact .inl (List.mem_append_left _ hseen)
      · rcases List.mem_cons.mp hfront with rfl | hfront
        · exact .inl (List.mem_append_right _ (List.mem_singleton_self sup))
        · exact .inr (.inl hfront)
      · exact .inr (.inr (List.mem_append_left _ hback))
    · rw [List.mem_singleton.mp hself] at hstep
      exact .inr (.inr (List.mem_append_right _ hstep))
  unanswered t ht := by
    rcases List.mem_append.mp ht with hseen | hself
    · exact h.unanswered t hseen
    · rw [List.mem_singleton.mp hself]
      exact hname

/-- When the queue is empty, everything that is reached has been met. -/
theorem complete (h : table.Frontier answer? start n [] [] seen) {m : Nat} {t : TypeName}
    (hclimb : table.Climb start m t) : t ∈ seen := by
  induction hclimb with
  | here =>
    rcases Nat.eq_zero_or_pos n with rfl | hpos
    · simpa using h.level start .here
    · exact h.nearer 0 hpos start .here
  | step _ hstep ih => simpa using h.closed _ ih _ hstep

end Frontier

/-- The answer of a search is that of a nearest type that has one. -/
theorem Search.nearest {table : TypeTable} {answer? : TypeName → Option α} {start : TypeName}
    {queue seen : List TypeName} {result : Option α} (hsearch : table.Search answer? queue seen result)
    {n : Nat} {front back : List TypeName} (hqueue : queue = front ++ back)
    (h : table.Frontier answer? start n front back seen) : table.Nearest answer? start result := by
  induction hsearch generalizing n front back with
  | exhausted =>
    obtain ⟨rfl, rfl⟩ := List.append_eq_nil_iff.mp hqueue.symm
    exact fun t m hclimb => h.unanswered t (h.complete hclimb)
  | passed hseen _ ih =>
    obtain ⟨n', front', back', hqueue', h'⟩ := h.head hqueue
    exact ih hqueue' (h'.pass hseen)
  | @answered name queue seen a _ hanswer =>
    obtain ⟨n', front', back', -, h'⟩ := h.head hqueue
    refine ⟨name, n', h'.reached name List.mem_cons_self, hanswer, fun m hm t hclimb => ?_⟩
    exact h'.unanswered t (h'.nearer m hm t hclimb)
  | expanded _ hanswer _ ih =>
    obtain ⟨n', front', back', hqueue', h'⟩ := h.head hqueue
    exact ih (by rw [hqueue', List.append_assoc]) (h'.expand hanswer)

/-- The first answer among the names of `ancestry` is that of a nearest type that has one. -/
theorem nearest_ancestry (table : TypeTable) (answer? : TypeName → Option α) (start : TypeName) :
    table.Nearest answer? start ((table.ancestry start).findSome? answer?) :=
  (table.search_ancestry answer? start).nearest rfl Frontier.root

theorem mem_ancestry_iff {table : TypeTable} {sub sup : TypeName} :
    sup ∈ table.ancestry sub ↔ Relation.ReflTransGen table.Extends sub sup := by
  have hnearest := table.nearest_ancestry (fun t => if t = sup then some () else none) sub
  rw [reflTransGen_iff_climb]
  cases hfound : (table.ancestry sub).findSome? fun t => if t = sup then some () else none with
  | some found =>
    rw [hfound] at hnearest
    obtain ⟨t, n, hclimb, hanswer, -⟩ := hnearest
    obtain ⟨t', hmem, hanswer'⟩ := List.exists_of_findSome?_eq_some hfound
    have ht : t = sup := by simpa using hanswer
    have ht' : t' = sup := by simpa using hanswer'
    exact iff_of_true (ht' ▸ hmem) ⟨n, ht ▸ hclimb⟩
  | none =>
    rw [hfound] at hnearest
    refine iff_of_false (fun hmem => ?_) ?_
    · simpa using List.findSome?_eq_none_iff.mp hfound sup hmem
    · rintro ⟨n, hclimb⟩
      simpa using hnearest sup n hclimb

/-! ## Subtypes -/

theorem isSubtype_iff {table : TypeTable} {sub sup : TypeName} :
    table.isSubtype sub sup = true ↔ Relation.ReflTransGen table.Extends sub sup := by
  rw [isSubtype, Bool.or_eq_true, beq_iff_eq, List.contains_iff_mem, mem_ancestry_iff]
  constructor
  · rintro (rfl | h)
    · exact .refl
    · exact h
  · exact .inr

/-- The answer that ends a search for `sup`: it stands among the declared supertypes. -/
def lists? (table : TypeTable) (sup t : TypeName) : Option Unit :=
  if sup ∈ table.supertypesOf t then some () else none

theorem isSome_of_nearest_lists? {table : TypeTable} {sub sup : TypeName} {found : Option Unit}
    (h : table.Nearest (table.lists? sup) sub found) :
    found.isSome = true ↔ Relation.TransGen table.Extends sub sup := by
  rw [Relation.TransGen.tail'_iff]
  cases found with
  | some u =>
    obtain ⟨t, n, hclimb, hanswer, -⟩ := h
    have hlists : sup ∈ table.supertypesOf t := by simpa [lists?] using hanswer
    exact iff_of_true rfl ⟨t, reflTransGen_iff_climb.mpr ⟨n, hclimb⟩, hlists⟩
  | none =>
    refine iff_of_false Bool.false_ne_true ?_
    rintro ⟨t, hreach, hlists⟩
    obtain ⟨n, hclimb⟩ := reflTransGen_iff_climb.mp hreach
    have hnot : sup ∉ table.supertypesOf t := by simpa [lists?] using h t n hclimb
    exact hnot hlists

theorem isSubtype_insertAll {table : TypeTable} (hordered : table.Ordered) {sub sup : TypeName}
    (h : table.isSubtype sub sup = true) (infos : List TypeInfo) :
    (table.insertAll infos).isSubtype sub sup = true := by
  rw [isSubtype_iff] at h ⊢
  exact Relation.ReflTransGen.mono
    (fun t _ hstep => supertypesOf_subset_insertAll hordered infos t hstep) _ _ h

/-- **The subtypes are those that reach the type through declared supertypes.** The search for a type
among the supertypes ends, whether they run in circles or not, and it finds the type exactly if one or
more steps lead there. So the order is reflexive and transitive, and added types only extend it. -/
theorem isSubtype_iff_transGen (table : TypeTable) :
    (∀ sub sup, ∃ found, table.Search (table.lists? sup) [sub] [] found ∧
      table.isSubtype sub sup = (sub == sup || found.isSome)) ∧
    (∀ sub sup, table.isSubtype sub sup = true ↔
      sub = sup ∨ Relation.TransGen table.Extends sub sup) ∧
    (∀ t, table.isSubtype t t = true) ∧
    (∀ a b c, table.isSubtype a b = true → table.isSubtype b c = true →
      table.isSubtype a c = true) ∧
    (table.Ordered → ∀ sub sup, table.isSubtype sub sup = true →
      (∀ info, (table.insert info).isSubtype sub sup = true) ∧
      ∀ other, (table.merge other).isSubtype sub sup = true) := by
  have hiff (sub sup : TypeName) : table.isSubtype sub sup = true ↔
      sub = sup ∨ Relation.TransGen table.Extends sub sup := by
    rw [isSubtype_iff, Relation.reflTransGen_iff_eq_or_transGen]
    exact or_congr_left eq_comm
  refine ⟨fun sub sup => ⟨_, table.search_ancestry (table.lists? sup) sub, ?_⟩, hiff,
    fun t => (hiff t t).mpr (.inl rfl), fun a b c hab hbc => ?_, fun hordered sub sup h => ?_⟩
  · have hfound := isSome_of_nearest_lists? (table.nearest_ancestry (table.lists? sup) sub)
    rw [Bool.eq_iff_iff, hiff, Bool.or_eq_true, beq_iff_eq, hfound]
  · rw [isSubtype_iff] at hab hbc ⊢
    exact hab.trans hbc
  · exact ⟨fun info => isSubtype_insertAll hordered h [info],
      fun other => isSubtype_insertAll hordered h other.types⟩

/-- Supertypes that run in circles and meet again. -/
def tangled : TypeTable :=
  let method (returns : String) : MethodInfo := ⟨"make", [], ⟨returns⟩, false⟩
  empty.insertAll
    [⟨⟨"p.A"⟩, [⟨"p.B"⟩, ⟨"p.C"⟩], []⟩, ⟨⟨"p.B"⟩, [⟨"p.D"⟩], []⟩,
      ⟨⟨"p.C"⟩, [⟨"p.A"⟩, ⟨"p.D"⟩], [method "p.X"]⟩,
      ⟨⟨"p.D"⟩, [⟨"p.E"⟩], [method "p.X", method "p.Y"]⟩]

/-- From `p.B` the undeclared `p.E` is reached through `p.D`, also when `p.D` is declared again. -/
theorem isSubtype_iff_transGen_tangled :
    tangled.Ordered ∧ tangled.isSubtype ⟨"p.B"⟩ ⟨"p.D"⟩ = true ∧
      tangled.isSubtype ⟨"p.D"⟩ ⟨"p.E"⟩ = true ∧ tangled.isSubtype ⟨"p.B"⟩ ⟨"p.E"⟩ = true ∧
      (tangled.insert ⟨⟨"p.D"⟩, [], []⟩).isSubtype ⟨"p.B"⟩ ⟨"p.E"⟩ = true := by
  obtain ⟨-, -, -, htrans, hadd⟩ := isSubtype_iff_transGen tangled
  have hbd : tangled.isSubtype ⟨"p.B"⟩ ⟨"p.D"⟩ = true := by decide +kernel
  have hde : tangled.isSubtype ⟨"p.D"⟩ ⟨"p.E"⟩ = true := by decide +kernel
  have hbe := htrans _ _ _ hbd hde
  have hordered : tangled.Ordered := ordered_insertAll _
  exact ⟨hordered, hbd, hde, hbe, (hadd hordered _ _ hbe).1 _⟩

/-! ## Return types -/

/-- The type itself declares a method with that name and arity and that return type. -/
def Declares (table : TypeTable) (t : TypeName) (name : String) (arity : Nat)
    (returns : TypeName) : Prop :=
  ∃ info, table.get? t = some info ∧
    ∃ m ∈ info.methods, m.name = name ∧ m.params.length = arity ∧ m.returns = returns

theorem mem_declaredReturns_iff {table : TypeTable} {t : TypeName} {name : String} {arity : Nat}
    {returns : TypeName} :
    returns ∈ table.declaredReturns t name arity ↔ table.Declares t name arity returns := by
  unfold declaredReturns Declares
  cases table.get? t with
  | none => simp
  | some info => simp [and_assoc]

/-- The answer that ends a search for a method: what the declared return types agree on. -/
def declared? (table : TypeTable) (name : String) (arity : Nat) (t : TypeName) :
    Option (Option TypeName) :=
  if (table.declaredReturns t name arity).isEmpty then none
  else some (agreed? (table.declaredReturns t name arity))

theorem returnType?_eq_findSome? (table : TypeTable) (owner : TypeName) (name : String)
    (arity : Nat) :
    table.returnType? owner name arity =
      ((table.ancestry owner).findSome? (table.declared? name arity)).join := by
  unfold returnType?
  induction table.ancestry owner with
  | nil => rfl
  | cons t ts ih =>
    rw [List.map_cons, List.findSome?_cons, declared?]
    cases hempty : (table.declaredReturns t name arity).isEmpty with
    | true =>
      rw [List.find?_cons_of_neg (by simp [hempty]), if_pos rfl]
      exact ih
    | false =>
      rw [List.find?_cons_of_pos (by simp [hempty])]
      rfl

theorem declared?_eq_none_iff {table : TypeTable} {name : String} {arity : Nat} {t : TypeName} :
    table.declared? name arity t = none ↔ ∀ returns, ¬ table.Declares t name arity returns := by
  have hempty : table.declared? name arity t = none ↔ table.declaredReturns t name arity = [] := by
    unfold declared?
    split
    next h => exact iff_of_true rfl (List.isEmpty_iff.mp h)
    next h => exact iff_of_false (by simp) (fun hnil => h (List.isEmpty_iff.mpr hnil))
  simp only [hempty, List.eq_nil_iff_forall_not_mem, mem_declaredReturns_iff]

/-- A list with a member has its agreed member, or two members that differ. -/
theorem agreed?_cases {ts : List TypeName} (hne : ts ≠ []) :
    (∃ t, agreed? ts = some t ∧ t ∈ ts ∧ ∀ u ∈ ts, u = t) ∨
      agreed? ts = none ∧ ∃ t ∈ ts, ∃ u ∈ ts, t ≠ u := by
  cases ts with
  | nil => exact absurd rfl hne
  | cons t ts =>
    rw [agreed?]
    split
    next hall =>
      have hsame : ∀ u ∈ ts, u = t := by simpa using hall
      exact .inl ⟨t, rfl, List.mem_cons_self, by simpa using hsame⟩
    next hall =>
      obtain ⟨u, hu, hdiffers⟩ : ∃ u ∈ ts, ¬ u = t := by simpa using hall
      exact .inr ⟨rfl, t, List.mem_cons_self, u, List.mem_cons_of_mem t hu, Ne.symm hdiffers⟩

/-- What is known of the type that ends a search for a method. -/
theorem declared?_eq_some {table : TypeTable} {name : String} {arity : Nat} {t : TypeName}
    {found : Option TypeName} (h : table.declared? name arity t = some found) :
    (∃ returns, found = some returns ∧ table.Declares t name arity returns ∧
      ∀ other, table.Declares t name arity other → other = returns) ∨
    found = none ∧ ∃ r₁ r₂, table.Declares t name arity r₁ ∧ table.Declares t name arity r₂ ∧
      r₁ ≠ r₂ := by
  rw [declared?, Option.ite_none_left_eq_some, Option.some.injEq] at h
  obtain ⟨hne, rfl⟩ := h
  simp only [← mem_declaredReturns_iff]
  rcases agreed?_cases (fun hnil => hne (List.isEmpty_iff.mpr hnil)) with
    ⟨r, hagreed, hmem, hall⟩ | ⟨hnone, r₁, h₁, r₂, h₂, hne⟩
  · exact .inl ⟨r, hagreed, hmem, hall⟩
  · exact .inr ⟨hnone, r₁, r₂, h₁, h₂, hne⟩

/-- **A return type comes from a nearest type that declares the method.** The search for it ends,
whether supertypes run in circles or not. With an answer, all methods of that name and arity that a
nearest declaring type has return it; without one, no type that is reached declares such a method, or a
nearest declaring type has two whose return types differ. -/
theorem returnType?_nearest (table : TypeTable) (owner : TypeName) (name : String) (arity : Nat) :
    (∃ found, table.Search (table.declared? name arity) [owner] [] found ∧
      table.returnType? owner name arity = found.join) ∧
    (∀ returns, table.returnType? owner name arity = some returns →
      ∃ t n, table.Climb owner n t ∧ table.Declares t name arity returns ∧
        (∀ other, table.Declares t name arity other → other = returns) ∧
        ∀ m < n, ∀ t', table.Climb owner m t' → ∀ other, ¬ table.Declares t' name arity other) ∧
    (table.returnType? owner name arity = none →
      (∀ t, Relation.ReflTransGen table.Extends owner t →
        ∀ other, ¬ table.Declares t name arity other) ∨
      ∃ t n, table.Climb owner n t ∧
        (∃ r₁ r₂, table.Declares t name arity r₁ ∧ table.Declares t name arity r₂ ∧ r₁ ≠ r₂) ∧
        ∀ m < n, ∀ t', table.Climb owner m t' → ∀ other, ¬ table.Declares t' name arity other) := by
  have hjoin := table.returnType?_eq_findSome? owner name arity
  have hnearest := table.nearest_ancestry (table.declared? name arity) owner
  refine ⟨⟨_, table.search_ancestry (table.declared? name arity) owner, hjoin⟩, ?_⟩
  rw [hjoin]
  cases hfound : (table.ancestry owner).findSome? (table.declared? name arity) with
  | none =>
    rw [hfound] at hnearest
    refine ⟨fun returns h => (nomatch h), fun _ => .inl fun t hreach => ?_⟩
    obtain ⟨n, hclimb⟩ := reflTransGen_iff_climb.mp hreach
    exact declared?_eq_none_iff.mp (hnearest t n hclimb)
  | some found =>
    rw [hfound] at hnearest
    obtain ⟨t, n, hclimb, hanswer, hnearer⟩ := hnearest
    have hbefore : ∀ m < n, ∀ t', table.Climb owner m t' →
        ∀ other, ¬ table.Declares t' name arity other :=
      fun m hm t' hclimb' => declared?_eq_none_iff.mp (hnearer m hm t' hclimb')
    rcases declared?_eq_some hanswer with ⟨returns, rfl, hdeclares, hall⟩ | ⟨rfl, hdiffer⟩
    · refine ⟨fun returns' h => ?_, fun h => (nomatch h)⟩
      cases h
      exact ⟨t, n, hclimb, hdeclares, hall, hbefore⟩
    · exact ⟨fun returns' h => (nomatch h), fun _ => .inr ⟨t, n, hclimb, hdiffer, hbefore⟩⟩

/-- From `p.A` the method of `p.C` answers, which is nearer than the differing ones of `p.D`; from
`p.B` these are the nearest. -/
theorem returnType?_nearest_tangled :
    (∃ t n, tangled.Climb ⟨"p.A"⟩ n t ∧ tangled.Declares t "make" 0 ⟨"p.X"⟩) ∧
      ∃ t n, tangled.Climb ⟨"p.B"⟩ n t ∧
        ∃ r₁ r₂, tangled.Declares t "make" 0 r₁ ∧ tangled.Declares t "make" 0 r₂ ∧ r₁ ≠ r₂ := by
  constructor
  · obtain ⟨-, hsome, -⟩ := returnType?_nearest tangled ⟨"p.A"⟩ "make" 0
    obtain ⟨t, n, hclimb, hdeclares, -⟩ := hsome ⟨"p.X"⟩ (by decide +kernel)
    exact ⟨t, n, hclimb, hdeclares⟩
  · obtain ⟨-, -, hnone⟩ := returnType?_nearest tangled ⟨"p.B"⟩ "make" 0
    have hreach : Relation.ReflTransGen tangled.Extends ⟨"p.B"⟩ ⟨"p.D"⟩ :=
      isSubtype_iff.mp (by decide +kernel)
    have hdeclares : tangled.Declares ⟨"p.D"⟩ "make" 0 ⟨"p.X"⟩ :=
      mem_declaredReturns_iff.mp (by decide +kernel)
    rcases hnone (by decide +kernel) with hnever | ⟨t, n, hclimb, hdiffer, -⟩
    · exact absurd hdeclares (hnever _ hreach _)
    · exact ⟨t, n, hclimb, hdiffer⟩

end TypeTable

end CallMigration
