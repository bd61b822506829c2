import DynamicTypes.Checker
import DynamicTypes.Proofs.Independence
import DynamicTypes.Proofs.Membership

/-!
# Types without variables

Membership takes one value and follows it down to the last thing it holds. A check
takes all values at a position, and what they hold at one component is gathered and
checked together before the next component is looked at. Where there are no
variables the order makes no difference to the outcome: a batch of values passes
exactly if each of them is a member, because at every component of the type the
batch holds what its values hold.

With no variable to bind, a check has no use for the environment or for type
classes either, so it gives the same verdict in every scope over the same heap.
-/

namespace DynamicTypes

namespace Ty

theorem varsAll_eq_nil {ts : List Ty} : varsAll ts = [] ↔ ∀ t ∈ ts, t.vars = [] := by
  induction ts with
  | nil => simp [varsAll]
  | cons t ts ih => rw [varsAll, List.append_eq_nil_iff, ih, List.forall_mem_cons]

theorem varsFields_eq_nil {fields : List (String × Ty)} :
    varsFields fields = [] ↔ ∀ f ∈ fields, f.2.vars = [] := by
  induction fields with
  | nil => simp [varsFields]
  | cons f fields ih => rw [varsFields, List.append_eq_nil_iff, ih, List.forall_mem_cons]

theorem isMember_leaf {t : Ty} (ht : t.isLeaf = true) {h : Heap} {v : Value} :
    t.isMember h v = true ↔ t.testChain h v = true := by
  rw [isMember_iff]
  refine and_iff_left fun i key u _ => ?_
  cases t with
  | con | record | var => cases ht
  | _ => exact ⟨rfl, fun x hx => nomatch hx⟩

end Ty

namespace Scope

variable {s : Scope} {t : Ty} {locus : Locus} {values : List Value} {b b' : Bindings}

/-! ## A batch passes if its values are members -/

/-- Whether checks of a type ask of each value that it is a member, and of nothing
else. -/
def AsksMembership (s : Scope) (t : Ty) : Prop :=
  ∀ (locus : Locus) (values : List Value) (b b' : Bindings),
    (satisfy s t locus values b).Succeeds b' ↔
      (∀ v ∈ values, t.isMember s.heap v = true) ∧ b' = b

theorem succeeds_satisfyParams {ts : List Ty} (hts : ∀ t ∈ ts, s.AsksMembership t)
    {held : Nat → List Value} {i : Nat} :
    (satisfyParams s held i ts locus b).Succeeds b' ↔
      (∀ (j : Nat) (t : Ty), ts[j]? = some t → ∀ x ∈ held (i + j), t.isMember s.heap x = true) ∧
        b' = b := by
  induction ts generalizing i b with
  | nil =>
      rw [succeeds_satisfyParams_nil]
      exact (and_iff_right (by simp)).symm
  | cons t ts ih =>
      rw [List.forall_mem_cons] at hts
      rw [succeeds_satisfyParams_cons]
      constructor
      · rintro ⟨b₁, hhead, htail⟩
        obtain ⟨hfirst, rfl⟩ := (hts.1 _ _ _ _).1 hhead
        obtain ⟨hrest, rfl⟩ := (ih hts.2).1 htail
        refine ⟨fun j u hu x hx => ?_, rfl⟩
        cases j with
        | zero =>
            cases hu
            exact hfirst x hx
        | succ j => exact hrest j u hu x (by rwa [Nat.add_right_comm])
      · rintro ⟨hall, rfl⟩
        refine ⟨b', (hts.1 _ _ _ _).2 ⟨hall 0 t rfl, rfl⟩, (ih hts.2).2 ⟨?_, rfl⟩⟩
        intro j u hu x hx
        exact hall (j + 1) u hu x (by rwa [Nat.add_right_comm] at hx)

theorem succeeds_satisfyFields {fields : List (String × Ty)}
    (hfs : ∀ f ∈ fields, s.AsksMembership f.2) :
    (satisfyFields s values fields locus b).Succeeds b' ↔
      (∀ f ∈ fields, ∀ v ∈ values,
        ∃ x, v.field? s.heap f.1 = some x ∧ f.2.isMember s.heap x = true) ∧ b' = b := by
  induction fields generalizing b with
  | nil =>
      rw [succeeds_satisfyFields_nil]
      exact (and_iff_right (by simp)).symm
  | cons f fields ih =>
      rw [List.forall_mem_cons] at hfs
      rw [succeeds_satisfyFields_cons, List.forall_mem_cons]
      constructor
      · rintro ⟨hthere, b₁, hhead, htail⟩
        obtain ⟨hfirst, rfl⟩ := (hfs.1 _ _ _ _).1 hhead
        obtain ⟨hrest, rfl⟩ := (ih hfs.2).1 htail
        refine ⟨⟨fun v hv => ?_, hrest⟩, rfl⟩
        obtain ⟨x, hx⟩ := Option.isSome_iff_exists.1 (hthere v hv)
        refine ⟨x, hx, hfirst x ?_⟩
        exact List.mem_map.2 ⟨v, hv, by rw [Value.field, hx]; rfl⟩
      · rintro ⟨⟨hhead, htail⟩, rfl⟩
        refine ⟨fun v hv => ?_, b', (hfs.1 _ _ _ _).2 ⟨fun y hy => ?_, rfl⟩,
          (ih hfs.2).2 ⟨htail, rfl⟩⟩
        · obtain ⟨x, hx, _⟩ := hhead v hv
          rw [hx]
          rfl
        · obtain ⟨v, hv, rfl⟩ := List.mem_map.1 hy
          obtain ⟨x, hx, hmem⟩ := hhead v hv
          rw [Value.field, hx]
          exact hmem

theorem asksMembership_leaf (ht : t.isLeaf = true) : s.AsksMembership t := by
  intro locus values b b'
  simp only [succeeds_satisfy_leaf ht, Ty.isMember_leaf ht]

theorem asksMembership (ht : t.vars = []) : s.AsksMembership t := by
  induction t with
  | con c supers params _ ih =>
      intro locus values b b'
      rw [Ty.vars, Ty.varsAll_eq_nil] at ht
      rw [succeeds_satisfy_con, succeeds_satisfyParams fun p hp => ih p hp (ht p hp), ← and_assoc]
      refine and_congr_left fun _ => ?_
      simp only [Ty.isMember_con, Nat.zero_add]
      constructor
      · rintro ⟨hchain, hheld⟩ v hv
        exact ⟨hchain v hv, fun i p hp x hx => hheld i p hp x (List.mem_flatMap.2 ⟨v, hv, hx⟩)⟩
      · intro hall
        refine ⟨fun v hv => (hall v hv).1, fun i p hp x hx => ?_⟩
        obtain ⟨v, hv, hx⟩ := List.mem_flatMap.1 hx
        exact (hall v hv).2 i p hp x hx
  | record r supers fields _ ih =>
      intro locus values b b'
      rw [Ty.vars, Ty.varsFields_eq_nil] at ht
      rw [succeeds_satisfy_record, succeeds_satisfyFields fun f hf => ih f hf (ht f hf),
        ← and_assoc]
      refine and_congr_left fun _ => ?_
      simp only [Ty.isMember_record]
      constructor
      · rintro ⟨hchain, hfields⟩ v hv
        exact ⟨hchain v hv, fun f hf => hfields f hf v hv⟩
      · intro hall
        exact ⟨fun v hv => (hall v hv).1, fun f hf v hv => (hall v hv).2 f hf⟩
  | var name params => cases ht
  | _ => exact asksMembership_leaf rfl

/-! ## The verdict depends on the heap only -/

variable {s' : Scope}

theorem satisfyParams_congr {ts : List Ty}
    (hts : ∀ t ∈ ts, ∀ (locus : Locus) (values : List Value) (b : Bindings),
      satisfy s t locus values b = satisfy s' t locus values b)
    (held : Nat → List Value) (i : Nat) :
    satisfyParams s held i ts locus = satisfyParams s' held i ts locus := by
  induction ts generalizing i with
  | nil =>
      funext b
      rw [satisfyParams, satisfyParams]
  | cons t ts ih =>
      rw [List.forall_mem_cons] at hts
      funext b
      rw [satisfyParams, satisfyParams, hts.1, ih hts.2]

theorem satisfyFields_congr {fields : List (String × Ty)} (hheap : s.heap = s'.heap)
    (hfs : ∀ f ∈ fields, ∀ (locus : Locus) (values : List Value) (b : Bindings),
      satisfy s f.2 locus values b = satisfy s' f.2 locus values b) (values : List Value) :
    satisfyFields s values fields locus = satisfyFields s' values fields locus := by
  induction fields with
  | nil =>
      funext b
      rw [satisfyFields, satisfyFields]
  | cons f fields ih =>
      rw [List.forall_mem_cons] at hfs
      funext b
      rw [satisfyFields, satisfyFields, hfs.1, ih hfs.2, hheap]

theorem guardChain_congr (hheap : s.heap = s'.heap) (next : Verdict) :
    s.guardChain t locus values b next = s'.guardChain t locus values b next := by
  unfold guardChain
  rw [hheap]

/-- A check of a type without variables gives the same verdict in all scopes over one
heap. -/
theorem satisfy_congr (hheap : s.heap = s'.heap) (ht : t.vars = []) :
    satisfy s t locus values b = satisfy s' t locus values b := by
  induction t generalizing locus values b with
  | con c supers params _ ih =>
      rw [Ty.vars, Ty.varsAll_eq_nil] at ht
      rw [satisfy, satisfy, hheap, satisfyParams_congr fun p hp locus values b => ih p hp (ht p hp),
        guardChain_congr hheap]
  | record r supers fields _ ih =>
      rw [Ty.vars, Ty.varsFields_eq_nil] at ht
      rw [satisfy, satisfy,
        satisfyFields_congr hheap fun f hf locus values b => ih f hf (ht f hf),
        guardChain_congr hheap]
  | var name params => cases ht
  | unknown | any => rw [satisfy, satisfy]
  | _ =>
      rw [satisfy, satisfy]
      · exact guardChain_congr hheap _
      all_goals
        intros
        contradiction

end Scope

namespace Checker

/-- A value satisfies a type without variables exactly if it is a member. The
environment has no part in it: it does not even change the failure that is reported.
Variables inside the type of a function do not count, because a function is not looked
into. -/
theorem test_eq_isMember {t : Ty} (ht : t.vars = []) (h : Heap) (env : List Ty)
    (v : Value) :
    (t.failure? h env v = none ↔ t.violation? h v = none) ∧
    (∀ env', t.failure? h env' v = t.failure? h env v) ∧
    ∀ c : Checker, c.failure? h t v = t.failure? h env v ∧ c.test h t v = t.isMember h v := by
  have hsame : ∀ env', t.failure? h env' v = t.failure? h env v := by
    intro env'
    exact congrArg Verdict.failure? (Scope.satisfy_congr rfl ht)
  have hmember : t.failure? h env v = none ↔ t.violation? h v = none := by
    have hasked := Scope.asksMembership (s := ⟨h, env, ∅⟩) ht (.root 0) [v] ∅
    constructor
    · intro hpassed
      exact Option.isNone_iff_eq_none.1 (((hasked _).1 ⟨hpassed, rfl⟩).1 v (by simp))
    · intro hnone
      have hv : ∀ x ∈ [v], t.isMember h x = true := by simp [Ty.isMember, hnone]
      exact ((hasked ∅).2 ⟨hv, rfl⟩).1
  refine ⟨hmember, hsame, fun c => ⟨hsame c.env, ?_⟩⟩
  rw [test, failure?, hsame, Ty.isMember, Bool.eq_iff_iff, Option.isNone_iff_eq_none,
    Option.isNone_iff_eq_none, hmember]

/-- The objects with a function and an array of booleans. -/
def watched : Ty :=
  .record ⟨none, ""⟩ [] [("f", .function [.var "a" [], Builtin.boolean]),
    ("xs", Builtin.array Builtin.boolean)]

/-- An object that is one of them, and one that has `null` in its array. -/
def watchedOrNot : Heap :=
  ⟨#[[.bool true], [.bool true, .null]],
    #[⟨none, none, .ofList [("f", .function 0 ⟨"f", 1, none⟩), ("xs", .array 0)]⟩,
      ⟨none, none, .ofList [("f", .function 0 ⟨"f", 1, none⟩), ("xs", .array 1)]⟩]⟩

theorem test_eq_isMember_watched :
    watched.vars = [] ∧ standard.test watchedOrNot watched (.object 0) = true ∧
      standard.test watchedOrNot watched (.object 1) = false := by
  have ht : watched.vars = [] := rfl
  have htest := fun v => ((test_eq_isMember ht watchedOrNot [] v).2.2 standard).2
  rw [htest, htest]
  exact ⟨ht, by decide +kernel, by decide +kernel⟩

end Checker

end DynamicTypes
