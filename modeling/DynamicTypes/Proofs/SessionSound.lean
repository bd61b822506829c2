import DynamicTypes.Proofs.Checks
import DynamicTypes.Proofs.ResolutionSound

/-!
# A session's checks are sound together

A session checks arguments and results one by one, in any order, and all its checks
share what is known of the variables. After a run of successful checks each value is
a member of its declared type, for every choice of types that the last bindings
still allow, even where the variables were bound or narrowed after the value had
been checked.

A run is any sequence of checks on one session, with anything in between that
leaves alone the heap and what the session knows.
-/

namespace DynamicTypes.Session

/-- The worlds that successful checks on a session lead to, with the values that were
checked and the types declared for them, the latest first. -/
inductive Checked (s : Session) : World → List (Ty × Value) → Prop where
  | start {state : SessionState} {w w' : World} (fresh : state.bindings = ∅)
      (made : start s.signature s.env state w = (s, w')) : Checked s w' []
  | between {w w' : World} {checked : List (Ty × Value)} (before : Checked s w checked)
      (heap : w'.heap = w.heap)
      (known : w'.sessions[s.state]?.map (·.bindings) = w.sessions[s.state]?.map (·.bindings)) :
      Checked s w' checked
  | argument {w w' : World} {checked : List (Ty × Value)} {index : Nat} {t : Ty} {v : Value}
      (before : Checked s w checked) (declared : s.signature.params[index]? = some t)
      (passed : s.checkArgument index v w = .done () w') : Checked s w' ((t, v) :: checked)
  | result {w w' : World} {checked : List (Ty × Value)} {v v' : Value}
      (before : Checked s w checked) (passed : s.checkResult v w = .done v' w') :
      Checked s w' ((s.signature.result, v) :: checked)

variable {s : Session} {w w' : World}

/-! ## A run of checks -/

/-- What a run of checks maintains. -/
structure Sound (s : Session) (w : World) (checked : List (Ty × Value)) : Prop where
  kept : s.state < w.sessions.size
  known : (s.scope w.heap).Known (s.bindings w)
  assured : ∀ p ∈ checked, (s.scope w.heap).Assured (s.bindings w) p.1 p.2

theorem sound_start {state : SessionState} (hfresh : state.bindings = ∅)
    (hmade : start s.signature s.env state w = (s, w')) : s.Sound w' [] := by
  obtain ⟨hs, rfl⟩ := Prod.mk.inj hmade
  have hstate : s.state = w.sessions.size := congrArg Session.state hs.symm
  have hbindings : s.bindings { w with sessions := w.sessions.push state } = ∅ := by
    rw [bindings_eq]
    simp [hstate, hfresh]
  refine ⟨?_, ?_, nofun⟩
  · simp [hstate]
  · exact hbindings ▸ Scope.known_empty

theorem Sound.between {checked : List (Ty × Value)} (hs : s.Sound w checked)
    (hheap : w'.heap = w.heap)
    (hknown : w'.sessions[s.state]?.map (·.bindings) = w.sessions[s.state]?.map (·.bindings)) :
    s.Sound w' checked := by
  have hbindings : s.bindings w' = s.bindings w := by rw [bindings_eq, bindings_eq, hknown]
  refine ⟨?_, ?_, ?_⟩
  · rw [Array.getElem?_eq_getElem hs.kept, Option.map_some, Option.map_eq_some_iff] at hknown
    obtain ⟨_, hstate, _⟩ := hknown
    exact (Array.getElem?_eq_some_iff.1 hstate).1
  · rw [hheap, hbindings]
    exact hs.known
  · rw [hheap, hbindings]
    exact hs.assured

/-- One more check keeps what was assured before and assures the new value. -/
theorem Sound.check {checked : List (Ty × Value)} (hs : s.Sound w checked)
    (henv : OpenEnvironment s.env) (htags : TagsApart s.env w.heap) {t : Ty} (ht : t.isPlain = true)
    {locus : Locus} {v : Value} (hheap : w'.heap = w.heap) (hkept : s.state < w'.sessions.size)
    (hpassed : ((s.scope w.heap).satisfy t locus [v] (s.bindings w)).Succeeds (s.bindings w')) :
    s.Sound w' ((t, v) :: checked) := by
  obtain ⟨hknown, hwithin, hassured⟩ :=
    Scope.soundAt_of_isPlain henv htags ht _ _ _ _ hs.known hpassed
  rw [← hheap] at hknown hassured
  refine ⟨hkept, hknown, List.forall_mem_cons.2 ⟨hassured v (by simp), fun p hp => ?_⟩⟩
  have hp := (hs.assured p hp).later hwithin
  rwa [← hheap] at hp

theorem Checked.sound {checked : List (Ty × Value)} (henv : OpenEnvironment s.env)
    (hplain : ∀ t ∈ s.signature.types, t.isPlain = true) (hrun : s.Checked w checked)
    (htags : TagsApart s.env w.heap) : s.Sound w checked := by
  induction hrun with
  | start fresh made => exact sound_start fresh made
  | between _ heap known ih => exact (ih (heap ▸ htags)).between heap known
  | @argument w₁ w₂ _ index t v _ declared passed ih =>
      have hheap := heap_conclude passed
      have hs := ih (hheap ▸ htags)
      obtain ⟨hkept, hpassed⟩ := conclude_eq_done hs.kept passed
      rw [succeeds_argumentVerdict declared] at hpassed
      have ht : t ∈ s.signature.types := List.mem_append_left _ (List.mem_of_getElem? declared)
      exact hs.check henv (hheap ▸ htags) (hplain t ht) hheap hkept hpassed
  | @result w₁ w₂ _ v v' _ passed ih =>
      obtain ⟨w₃, hcheck, hheap', hsessions⟩ := checkResult_eq_done passed
      have hheap := heap_conclude hcheck
      have htags₁ : TagsApart s.env w₁.heap := hheap ▸ hheap' ▸ htags
      have hs := ih htags₁
      obtain ⟨hkept, hpassed⟩ := conclude_eq_done hs.kept hcheck
      have ht : s.signature.result ∈ s.signature.types := by simp [Signature.types]
      have hs' := hs.check henv htags₁ (hplain _ ht) hheap hkept hpassed
      -- wrapping the result changes neither the heap nor the session
      exact hs'.between hheap' (by rw [hsessions])

/-- After any run of checks that passed, on a session whose signature has plain
variables only and over an open environment: every bound variable has a type left; every
checked value is a member of its declared type, whichever of the types that are left is
put in the place of each bound variable, and whatever is put in the place of the others;
and every value seen for a variable has passed each type class required of the
variable. -/
theorem Checked.isMember_subst {checked : List (Ty × Value)}
    (henv : OpenEnvironment s.env) (hplain : ∀ t ∈ s.signature.types, t.isPlain = true)
    (hrun : s.Checked w checked) (htags : TagsApart s.env w.heap) :
    (∀ (name : String) (types : List Ty), (s.bindings w).types? name = some types → types ≠ []) ∧
    (∀ σ : String → Ty,
      (∀ (name : String) (types : List Ty), (s.bindings w).types? name = some types →
        σ name ∈ types) →
      ∀ p ∈ checked, (p.1.subst σ).isMember w.heap p.2 = true) ∧
    (∀ (name : String) (classes : List TypeClass),
      s.signature.constraints.find? name = some classes → ∀ c ∈ classes,
        ∀ p ∈ (s.bindings w).observations name, ∀ v ∈ p.2, c.test w.heap v = true) := by
  have hsound := hrun.sound henv hplain htags
  refine ⟨fun name types htypes => (hsound.known.types name types htypes).1,
    fun σ hσ p hp => hsound.assured p hp _ hsound.known (.refl _) σ hσ,
    fun name classes hclasses c hc p hp v hv => ?_⟩
  refine hsound.known.classes name v ⟨p, hp, hv⟩ c ?_
  rw [show (s.scope w.heap).constraints.find? name = some classes from hclasses]
  exact hc

/-- The empty array is checked first, when nothing tells what it holds, and then
`[true]`. Both belong to whatever is left for their variable, and something is left. -/
theorem Checked.isMember_subst_refined :
    ∃ (s : Session) (w : World) (σ : String → Ty),
      OpenEnvironment s.env ∧ (∀ t ∈ s.signature.types, t.isPlain = true) ∧
      s.Checked w [(.var "a" [], .array 1), (.var "a" [], .array 0)] ∧ TagsApart s.env w.heap ∧
      (∀ (name : String) (types : List Ty), (s.bindings w).types? name = some types →
        σ name ∈ types) ∧
      (σ "a").isMember w.heap (.array 0) = true ∧ (σ "a").isMember w.heap (.array 1) = true := by
  let s : Session :=
    ⟨⟨"put", ∅, [.var "a" [], .var "a" []], .any, by decide⟩, Builtin.environment, 0⟩
  let h : Heap := ⟨#[[], [.bool true]], #[]⟩
  have hplain : ∀ t ∈ s.signature.types, t.isPlain = true := by decide
  obtain ⟨w, hrun, htags⟩ : ∃ w, s.Checked w [(.var "a" [], .array 1), (.var "a" [], .array 0)] ∧
      TagsApart s.env w.heap := by
    have hstart : s.Checked ⟨h, #[], #[default], ∅⟩ [] := .start (w := ⟨h, #[], #[], ∅⟩) rfl rfl
    have hempty := hstart.argument (t := .var "a" []) rfl
      (checkArgument_of_passes 1 (.array 0) (by decide +kernel))
    have hboth := hempty.argument (t := .var "a" []) rfl
      (checkArgument_of_passes 0 (.array 1) (by decide +kernel))
    exact ⟨_, hboth, fun c supers _ o => by simp [World.setSession, Heap.object, h]⟩
  obtain ⟨hne, hmember, _⟩ := hrun.isMember_subst openEnvironment_builtin hplain htags
  let σ (name : String) : Ty := (((s.bindings w).types? name).getD []).headD .unknown
  have hσ : ∀ (name : String) (types : List Ty), (s.bindings w).types? name = some types →
      σ name ∈ types := by
    intro name types htypes
    obtain ⟨t, ts, rfl⟩ := List.exists_cons_of_ne_nil (hne name types htypes)
    simp [σ, htypes]
  exact ⟨s, w, σ, openEnvironment_builtin, hplain, hrun, htags, hσ,
    hmember σ hσ (.var "a" [], .array 0) (by simp), hmember σ hσ (.var "a" [], .array 1) (by simp)⟩

end DynamicTypes.Session
