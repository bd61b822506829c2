import DynamicTypes.Proofs.Bindings
import DynamicTypes.Proofs.Resolution
import DynamicTypes.Proofs.TypeOrder

/-!
# Checks that do not see each other

A check reads and changes what is known of the variables of its type, and of no
others. `Confined` says this of a step from bindings to bindings: outside certain
names nothing changes, and whether the step succeeds, and what it does to those
names, depends on them alone.

Two steps that are confined to different names commute, bindings included. That
the bindings come out the same and not only alike is owed to sorted maps: two of
them that answer all lookups alike are equal.
-/

namespace DynamicTypes

namespace Ty

mutual

/-- The variables that a check of the type may bind. What a function takes and gives is
looked at only when the function is called. -/
def vars : Ty → List String
  | con _ _ params => varsAll params
  | record _ _ fields => varsFields fields
  | var name params => name :: varsAll params
  | _ => []

def varsAll : List Ty → List String
  | [] => []
  | t :: ts => vars t ++ varsAll ts

def varsFields : List (String × Ty) → List String
  | [] => []
  | (_, t) :: rest => vars t ++ varsFields rest

end

end Ty

/-- A step from bindings to bindings that reads and changes what is known of some
variables only. -/
def Confined (names : List String) (step : Bindings → Bindings → Prop) : Prop :=
  ∀ b b₁ : Bindings, step b b₁ →
    (∀ n ∉ names, b₁.find? n = b.find? n) ∧
    ∀ b' : Bindings, (∀ n ∈ names, b'.find? n = b.find? n) →
      ∃ b₁', step b' b₁' ∧ ∀ n ∈ names, b₁'.find? n = b₁.find? n

namespace Confined

variable {names : List String} {step next : Bindings → Bindings → Prop}

theorem stay : Confined names fun b b₁ => b₁ = b := by
  rintro b _ rfl
  exact ⟨fun _ _ => rfl, fun b' hb' => ⟨b', rfl, hb'⟩⟩

theorem guarded {p : Prop} (hstep : p → Confined names step) :
    Confined names fun b b₁ => p ∧ step b b₁ := by
  rintro b b₁ ⟨hp, hb⟩
  obtain ⟨hframe, hlocal⟩ := hstep hp b b₁ hb
  refine ⟨hframe, fun b' hb' => ?_⟩
  obtain ⟨b₁', hb₁', hnames⟩ := hlocal b' hb'
  exact ⟨b₁', ⟨hp, hb₁'⟩, hnames⟩

theorem andThen (hstep : Confined names step) (hnext : Confined names next) :
    Confined names fun b b₂ => ∃ b₁, step b b₁ ∧ next b₁ b₂ := by
  rintro b b₂ ⟨b₁, hb, hb₁⟩
  obtain ⟨hframe, hlocal⟩ := hstep b b₁ hb
  obtain ⟨hframe₁, hlocal₁⟩ := hnext b₁ b₂ hb₁
  refine ⟨fun n hn => (hframe₁ n hn).trans (hframe n hn), fun b' hb' => ?_⟩
  obtain ⟨b₁', hb₁', hnames⟩ := hlocal b' hb'
  obtain ⟨b₂', hb₂', hnames₁⟩ := hlocal₁ b₁' hnames
  exact ⟨b₂', ⟨b₁', hb₁', hb₂'⟩, hnames₁⟩

theorem mono {names' : List String} (hstep : Confined names step)
    (hsub : names ⊆ names') :
    Confined names' step := by
  intro b b₁ hb
  obtain ⟨hframe, hlocal⟩ := hstep b b₁ hb
  refine ⟨fun n hn => hframe n fun h => hn (hsub h), fun b' hb' => ?_⟩
  obtain ⟨b₁', hb₁', hnames⟩ := hlocal b' fun n hn => hb' n (hsub hn)
  refine ⟨b₁', hb₁', fun n hn => ?_⟩
  by_cases hmem : n ∈ names
  · exact hnames n hmem
  · rw [(hstep b' b₁' hb₁').1 n hmem, hb' n hn, hframe n hmem]

/-- Steps confined to different names can be taken in either order. -/
theorem comm {names' : List String} (hstep : Confined names step)
    (hnext : Confined names' next) (hdisjoint : ∀ n ∈ names, n ∉ names')
    {b b₁ b₂ : Bindings} (hb : step b b₁) (hb₁ : next b₁ b₂) :
    ∃ b₁', next b b₁' ∧ step b₁' b₂ := by
  obtain ⟨hframe, hlocal⟩ := hstep b b₁ hb
  obtain ⟨hframe₁, hlocal₁⟩ := hnext b₁ b₂ hb₁
  obtain ⟨b₁', hb₁', hnames'⟩ := hlocal₁ b fun n hn => (hframe n fun h => hdisjoint n h hn).symm
  have hframe' := (hnext b b₁' hb₁').1
  obtain ⟨b₂', hb₂', hnames⟩ := hlocal b₁' fun n hn => hframe' n (hdisjoint n hn)
  have hframe₂ := (hstep b₁' b₂' hb₂').1
  have heq : b₂' = b₂ := by
    refine SortedMap.ext_find? fun n => ?_
    by_cases hn : n ∈ names
    · rw [hnames n hn, hframe₁ n (hdisjoint n hn)]
    · rw [hframe₂ n hn]
      by_cases hn' : n ∈ names'
      · exact hnames' n hn'
      · rw [hframe' n hn', hframe₁ n hn', hframe n hn]
  exact ⟨b₁', hb₁', heq ▸ hb₂'⟩

end Confined

/-! ## Sequences of steps -/

section Runs

variable {ι : Type} {step : ι → Bindings → Bindings → Prop}

/-- Steps taken one after the other. -/
def Runs (step : ι → Bindings → Bindings → Prop) : List ι → Bindings → Bindings → Prop
  | [], b, b' => b' = b
  | i :: is, b, b' => ∃ b₁, step i b b₁ ∧ Runs step is b₁ b'

theorem runs_append {is js : List ι} {b b' : Bindings} :
    Runs step (is ++ js) b b' ↔ ∃ b₁, Runs step is b b₁ ∧ Runs step js b₁ b' := by
  induction is generalizing b with
  | nil => simp [Runs]
  | cons i is ih =>
      simp only [List.cons_append, Runs, ih]
      constructor
      · rintro ⟨b₁, hi, b₂, his, hjs⟩
        exact ⟨b₂, ⟨b₁, hi, his⟩, hjs⟩
      · rintro ⟨b₂, ⟨b₁, hi, his⟩, hjs⟩
        exact ⟨b₁, hi, b₂, his, hjs⟩

theorem Runs.unique (hstep : ∀ i b b₁ b₂, step i b b₁ → step i b b₂ → b₁ = b₂)
    {is : List ι} {b b₁ b₂ : Bindings} (h₁ : Runs step is b b₁)
    (h₂ : Runs step is b b₂) : b₁ = b₂ := by
  induction is generalizing b with
  | nil => exact h₁.trans h₂.symm
  | cons i is ih =>
      obtain ⟨c₁, hc₁, h₁⟩ := h₁
      obtain ⟨c₂, hc₂, h₂⟩ := h₂
      cases hstep i b c₁ c₂ hc₁ hc₂
      exact ih h₁ h₂

variable {names : ι → List String} (hstep : ∀ i, Confined (names i) (step i))

include hstep

/-- A first step that is independent of those after it can be taken after them. -/
theorem Runs.move_first {x : ι} {is : List ι}
    (hind : ∀ i ∈ is, ∀ n ∈ names x, n ∉ names i) {b b' : Bindings}
    (hruns : Runs step (x :: is) b b') : Runs step (is ++ [x]) b b' := by
  induction is generalizing b with
  | nil => exact hruns
  | cons i is ih =>
      rw [List.forall_mem_cons] at hind
      obtain ⟨b₁, hx, b₂, hi, his⟩ := hruns
      obtain ⟨b₁', hi', hx'⟩ := (hstep x).comm (hstep i) hind.1 hx hi
      exact ⟨b₁', hi', ih hind.2 ⟨b₂, hx', his⟩⟩

/-- Two sequences of the same steps do the same if steps that share a name come in the
same order in both. -/
theorem Runs.of_perm [DecidableEq ι] {is js : List ι} (hperm : is.Perm js) (hnodup : is.Nodup)
    (horder : ∀ i j, (∃ n ∈ names i, n ∈ names j) →
      ([i, j].Sublist is ↔ [i, j].Sublist js))
    {b b' : Bindings} (hruns : Runs step is b b') : Runs step js b b' := by
  induction is generalizing js b with
  | nil =>
      cases hperm.nil_eq
      exact hruns
  | cons x is ih =>
      obtain ⟨hx, hnodup'⟩ := List.nodup_cons.1 hnodup
      obtain ⟨front, back, rfl⟩ := List.append_of_mem (hperm.subset (by simp : x ∈ x :: is))
      have hnodup₂ := hperm.nodup_iff.1 hnodup
      have hfront : x ∉ front := fun h => List.disjoint_of_nodup_append hnodup₂ h (by simp)
      have herase : (front ++ x :: back).erase x = front ++ back := by
        rw [List.erase_append_right _ hfront, List.erase_cons_head]
      have hperm' : is.Perm (front ++ back) := (hperm.trans List.perm_middle).cons_inv
      -- whatever comes before the step in the other sequence is independent of it
      have hind : ∀ i ∈ front, ∀ n ∈ names x, n ∉ names i := by
        intro i hi n hn hn'
        have hbefore : [i, x].Sublist (front ++ x :: back) :=
          (List.singleton_sublist.2 hi).append (List.singleton_sublist.2 (by simp))
        rcases List.sublist_cons_iff.1 ((horder i x ⟨n, hn', hn⟩).2 hbefore) with h | ⟨r, h, _⟩
        · exact hx (h.subset (by simp))
        · cases h
          exact hfront hi
      obtain ⟨b₁, hb, hruns⟩ := hruns
      have hruns' := ih hperm' hnodup' (fun i j hij => ?_) hruns
      · rw [List.append_cons, runs_append]
        obtain ⟨b₂, hfronts, hback⟩ := runs_append.1 hruns'
        exact ⟨b₂, move_first hstep hind ⟨b₁, hb, hfronts⟩, hback⟩
      · by_cases hmem : x ∈ [i, j]
        · have hback : x ∉ front ++ back := fun h => hx (hperm'.mem_iff.2 h)
          exact iff_of_false (fun h => hx (h.subset hmem)) fun h => hback (h.subset hmem)
        · have hiff :=
            (sublist_iff_erase hmem).symm.trans ((horder i j hij).trans (sublist_iff_erase hmem))
          rwa [List.erase_cons_head, herase] at hiff

end Runs

namespace Scope

variable {s : Scope} {locus : Locus} {values : List Value}

/-- Taking values for a variable is confined to the variable. -/
theorem confined_satisfyVariable {t : Ty} {name : String} {arity : Nat} :
    Confined [name] fun b b₁ => (s.satisfyVariable t name arity locus values b).Succeeds b₁ := by
  simp only [succeeds_satisfyVariable]
  refine .guarded fun _ => ?_
  intro b b₁ hb
  have hread : ∀ b' : Bindings, b'.find? name = b.find? name →
      s.narrowed name arity values b' = s.narrowed name arity values b := by
    intro b' hb'
    have htypes : b'.types? name = b.types? name := by rw [Bindings.types?, Bindings.types?, hb']
    unfold narrowed
    rw [Bindings.contains_eq, Bindings.contains_eq, htypes]
  rcases hb with ⟨hvalues, rfl⟩ | ⟨hvalues, hne, rfl⟩
  · exact ⟨fun _ _ => rfl, fun b' hb' => ⟨b', .inl ⟨hvalues, rfl⟩, hb'⟩⟩
  · refine ⟨fun n hn => ?_, fun b' hb' => ?_⟩
    · have hn' : name ≠ n := fun h => hn (by simp [h])
      rw [Bindings.bind, SortedMap.find?_insert, if_neg hn', Bindings.observe,
        SortedMap.find?_insert, if_neg hn']
    · have hname := hb' name (by simp)
      refine ⟨_, .inr ⟨hvalues, hread b' hname ▸ hne, rfl⟩, fun n hn => ?_⟩
      rw [List.mem_singleton.1 hn, hread b' hname]
      simp only [Bindings.bind, Bindings.observe, SortedMap.find?_insert, if_true, hname]

theorem confined_satisfyParams {ts : List Ty}
    (hts : ∀ t ∈ ts, ∀ (locus : Locus) (values : List Value),
      Confined t.vars fun b b₁ => (satisfy s t locus values b).Succeeds b₁)
    {held : Nat → List Value} {i : Nat} :
    Confined (Ty.varsAll ts) fun b b₁ => (satisfyParams s held i ts locus b).Succeeds b₁ := by
  induction ts generalizing i with
  | nil =>
      simp only [succeeds_satisfyParams_nil]
      exact .stay
  | cons t ts ih =>
      rw [List.forall_mem_cons] at hts
      simp only [succeeds_satisfyParams_cons, Ty.varsAll]
      exact .andThen ((hts.1 _ _).mono (List.subset_append_left _ _))
        ((ih hts.2).mono (List.subset_append_right _ _))

theorem confined_satisfyFields {fields : List (String × Ty)}
    (hfs : ∀ f ∈ fields, ∀ (locus : Locus) (values : List Value),
      Confined f.2.vars fun b b₁ => (satisfy s f.2 locus values b).Succeeds b₁) :
    Confined (Ty.varsFields fields)
      fun b b₁ => (satisfyFields s values fields locus b).Succeeds b₁ := by
  induction fields with
  | nil =>
      simp only [succeeds_satisfyFields_nil]
      exact .stay
  | cons f fields ih =>
      obtain ⟨key, t⟩ := f
      rw [List.forall_mem_cons] at hfs
      simp only [succeeds_satisfyFields_cons, Ty.varsFields]
      exact .guarded fun _ => .andThen ((hfs.1 _ _).mono (List.subset_append_left _ _))
        ((ih hfs.2).mono (List.subset_append_right _ _))

theorem confined_satisfy_leaf {t : Ty} (ht : t.isLeaf = true) :
    Confined t.vars fun b b₁ => (satisfy s t locus values b).Succeeds b₁ := by
  simp only [succeeds_satisfy_leaf ht]
  exact .guarded fun _ => .stay

/-- A check of a type is confined to the variables of the type. -/
theorem confined_satisfy (t : Ty) (locus : Locus) (values : List Value) :
    Confined t.vars fun b b₁ => (satisfy s t locus values b).Succeeds b₁ := by
  induction t generalizing locus values with
  | con c supers params _ ih =>
      simp only [succeeds_satisfy_con, Ty.vars]
      exact .guarded fun _ => confined_satisfyParams ih
  | record r supers fields _ ih =>
      simp only [succeeds_satisfy_record, Ty.vars]
      exact .guarded fun _ => confined_satisfyFields ih
  | var name params ih =>
      simp only [succeeds_satisfy_var, Ty.vars]
      refine .andThen (confined_satisfyVariable.mono (by simp)) ?_
      -- what the parameters are checked against is read off the variable's own types
      intro b b₁ hb
      obtain ⟨hframe, hlocal⟩ :=
        (confined_satisfyParams ih).mono (List.subset_cons_self name _) b b₁ hb
      refine ⟨hframe, fun b' hb' => ?_⟩
      have htypes : b'.types? name = b.types? name := by
        rw [Bindings.types?, Bindings.types?, hb' name (by simp)]
      simp only [htypes]
      exact hlocal b' hb'
  | _ => exact confined_satisfy_leaf rfl

end Scope

end DynamicTypes
