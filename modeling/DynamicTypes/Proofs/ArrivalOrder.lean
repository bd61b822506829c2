import DynamicTypes.Proofs.Handover
import DynamicTypes.Ty.Builtin

/-!
# When the order of arguments does not matter

Two chains of calls that supply a function with the same arguments should either both run
it or both be refused. They do if slots that share a variable are filled in the same order,
and then they even run it with the same bindings. For a function that takes a bare variable
in each slot no less will do: any order is possible, and as soon as two slots share their
variable there are arguments that pass in one order and not in another.

The arguments are `[[]]` and `[[true], [null]]`. The first one binds the variable to
arrays of arrays of anything, and nobody asks any more what the second one holds.
Arriving first, the second one has no consistent type at all.
-/

namespace DynamicTypes.Application

/-! ## Chains that supply the same arguments -/

/-- Whether calls with these groups of arguments fill all slots of a function, each with
the argument of its number. -/
structure Supplies (arity : Nat) (groups : List (List Value)) (xs : List Value) :
    Prop where
  fills : FillsAll (List.range arity) groups
  length_eq : xs.length = arity
  own : ∀ p ∈ arrived (List.range arity) groups, xs[p.2]? = some p.1

/-- The slots of a function in the order in which a chain of calls fills them. -/
def fillOrder (arity : Nat) (groups : List (List Value)) : List Nat :=
  (arrived (List.range arity) groups).map (·.2)

section Supplies

variable {arity : Nat} {groups groups' : List (List Value)} {xs : List Value}

theorem Supplies.perm_range (hsupply : Supplies arity groups xs) :
    (fillOrder arity groups).Perm (List.range arity) :=
  hsupply.fills.perm List.nodup_range

theorem Supplies.nodup_fillOrder (hsupply : Supplies arity groups xs) :
    (fillOrder arity groups).Nodup :=
  hsupply.perm_range.nodup_iff.2 List.nodup_range

theorem Supplies.put_slots (hsupply : Supplies arity groups xs) :
    put (List.replicate arity none) (arrived (List.range arity) groups) = xs.map some := by
  obtain ⟨fills, rfl, own⟩ := hsupply
  exact put_replicate (fills.perm List.nodup_range) own

theorem FillsAll.exists_supplies (hfills : FillsAll (List.range arity) groups) :
    ∃ xs, Supplies arity groups xs := by
  obtain ⟨xs, hlength, hxs⟩ := exists_values (hfills.perm List.nodup_range)
  exact ⟨xs, hfills, hlength, hxs⟩

theorem Supplies.mem_arrived (hsupply : Supplies arity groups xs) {v : Value}
    {i : Nat} :
    (v, i) ∈ arrived (List.range arity) groups ↔ xs[i]? = some v := by
  refine ⟨hsupply.own (v, i), fun hv => ?_⟩
  have hi : i ∈ fillOrder arity groups := by
    rw [hsupply.perm_range.mem_iff, List.mem_range, ← hsupply.length_eq]
    exact (List.getElem?_eq_some_iff.1 hv).1
  obtain ⟨p, hp, rfl⟩ := List.mem_map.1 hi
  cases (hsupply.own p hp).symm.trans hv
  exact hp

/-- Chains that supply the same arguments differ in the order of arrival only. -/
theorem Supplies.perm (hsupply : Supplies arity groups xs)
    (hsupply' : Supplies arity groups' xs) :
    (arrived (List.range arity) groups).Perm (arrived (List.range arity) groups') := by
  refine (List.perm_ext_iff_of_nodup hsupply.nodup_fillOrder.of_map
    hsupply'.nodup_fillOrder.of_map).2 fun p => ?_
  rw [hsupply.mem_arrived, hsupply'.mem_arrived]

end Supplies

/-! ## Chains in the same order -/

/-- The variables that the check of an argument may bind. -/
def varsAt (signature : Signature) (i : Nat) : List String :=
  ((signature.params[i]?).map Ty.vars).getD []

/-- Whether slots that share a variable are filled in the same order. -/
def SameOrder (signature : Signature) (order order' : List Nat) : Prop :=
  ∀ i j, (∃ n ∈ varsAt signature i, n ∈ varsAt signature j) →
    ([i, j].Sublist order ↔ [i, j].Sublist order')

/-- Whether a chain of calls ends in a run of the body: its arguments pass as they
arrive, and the body is run on all of them with the bindings that they leave. -/
def EndsInRun (signature : Signature) (env : List Ty) (body : Body) (depth : Nat)
    (b : Bindings) (xs : List Value) (groups : List (List Value)) (w : World)
    (o : Outcome Diagnostic Value) :
    Prop :=
  Runs (Passes w.heap signature env) (arrived (List.range signature.arity) groups) ∅ b ∧
    RunsWith signature env body depth b xs w o

/-- Whether a chain of calls ends with the report on the first of its arguments that
fails, and leaves nothing behind but the functions and sessions made on the way. -/
def EndsRefused (signature : Signature) (env : List Ty) (groups : List (List Value))
    (w : World) (o : Outcome Diagnostic Value) : Prop :=
  ∃ d made states,
    RefusedAtFirst w.heap signature env ∅ (arrived (List.range signature.arity) groups) d ∧
    o = .failed d (w.extend made states)

/-- Whether two chains of calls of a function both run its body, on the given arguments
and with the same bindings, or are both refused. -/
def CallsAgree (signature : Signature) (env : List Ty) (body : Body) (depth : Nat)
    (f : Value) (w : World) (xs : List Value) (groups groups' : List (List Value)) :
    Prop :=
  (∃ b, EndsInRun signature env body depth b xs groups w (World.callAll (depth + 1) groups f w) ∧
    EndsInRun signature env body depth b xs groups' w (World.callAll (depth + 1) groups' f w)) ∨
  EndsRefused signature env groups w (World.callAll (depth + 1) groups f w) ∧
    EndsRefused signature env groups' w (World.callAll (depth + 1) groups' f w)

section SameOrder

variable {signature : Signature} {env : List Ty} {body : Body} {w : World} {f : Nat}
  {groups groups' : List (List Value)} {xs : List Value}

theorem confined_passes {h : Heap} (p : Value × Nat) :
    Confined (varsAt signature p.2) (Passes h signature env p) := by
  unfold Passes Signature.argumentVerdict varsAt
  cases signature.params[p.2]? with
  | none => exact fun _ _ hb => absurd hb Verdict.not_succeeds_reject
  | some t => exact Scope.confined_satisfy t _ _

/-- Arguments pass in one order if they pass in another one in which slots that share a
variable are filled in the same order. -/
theorem Supplies.runs_of_sameOrder (hsupply : Supplies signature.arity groups xs)
    (hsupply' : Supplies signature.arity groups' xs)
    (horder : SameOrder signature (fillOrder signature.arity groups)
      (fillOrder signature.arity groups')) {h : Heap} {b b' : Bindings}
    (hruns : Runs (Passes h signature env) (arrived (List.range signature.arity) groups) b b') :
    Runs (Passes h signature env) (arrived (List.range signature.arity) groups') b b' := by
  have hnodup := hsupply.nodup_fillOrder
  have hnodup' := hsupply'.nodup_fillOrder
  have hperm := hsupply.perm hsupply'
  classical
  refine hruns.of_perm confined_passes hperm hnodup.of_map fun p q hpq => ⟨fun h => ?_, fun h => ?_⟩
  · exact sublist_of_map_sublist hnodup' hperm.subset h ((horder _ _ hpq).1 (h.map Prod.snd))
  · exact sublist_of_map_sublist hnodup hperm.symm.subset h ((horder _ _ hpq).2 (h.map Prod.snd))

theorem SameOrder.symm {order order' : List Nat}
    (horder : SameOrder signature order order') :
    SameOrder signature order' order :=
  fun i j hij => (horder i j hij).symm

/-- A chain that supplies all arguments runs the body, or is refused. -/
theorem Supplies.runs_or_refused (hsupply : Supplies signature.arity groups xs)
    (hdefines : w.Defines f signature env true body) (depth : Nat)
    (info : FunctionInfo) :
    (∃ b, EndsInRun signature env body depth b xs groups w
      (World.callAll (depth + 1) groups (.function f info) w)) ∨
    EndsRefused signature env groups w
      (World.callAll (depth + 1) groups (.function f info) w) := by
  obtain ⟨a, hcode, ha⟩ := hdefines
  obtain ⟨made, states, _, _, _, _, hcalls⟩ :=
    callAll_eq_finish hcode (ha.openSlots.symm ▸ hsupply.fills) depth info
  rw [hcalls, ha.openSlots]
  rcases ha.runs_or_refuses (by rw [ha.slots_eq, hsupply.put_slots]) w.heap depth with
    ⟨b, hruns, hfinish⟩ | ⟨d, hrefused, hfinish⟩
  · exact .inl ⟨b, hruns, (hfinish _).of_extend⟩
  · exact .inr ⟨d, made, states, hrefused, hfinish _⟩

theorem callsAgree_of_sameOrder (hsupply : Supplies signature.arity groups xs)
    (hsupply' : Supplies signature.arity groups' xs)
    (horder : SameOrder signature (fillOrder signature.arity groups)
      (fillOrder signature.arity groups')) (hdefines : w.Defines f signature env true body)
    (depth : Nat) (info : FunctionInfo) :
    CallsAgree signature env body depth (.function f info) w xs groups groups' := by
  rcases hsupply.runs_or_refused hdefines depth info with ⟨b, hruns, hend⟩ | hrefused
  · have hruns' := hsupply.runs_of_sameOrder hsupply' horder hruns
    rcases hsupply'.runs_or_refused hdefines depth info with ⟨b', hb', hend'⟩ | ⟨d, _, _, hd, _⟩
    · cases hruns'.unique passes_unique hb'
      exact .inl ⟨b, ⟨hruns, hend⟩, hruns', hend'⟩
    · exact absurd hruns' (hd.not_runs b)
  · rcases hsupply'.runs_or_refused hdefines depth info with ⟨b', hruns', _⟩ | hrefused'
    · obtain ⟨d, _, _, hd, _⟩ := hrefused
      exact absurd (hsupply'.runs_of_sameOrder hsupply horder.symm hruns') (hd.not_runs b')
    · exact .inr ⟨hrefused, hrefused'⟩

/-- Slots that share no variable may be filled in any order. -/
theorem Supplies.sameOrder (hsupply : Supplies signature.arity groups xs)
    (hsupply' : Supplies signature.arity groups' xs)
    (hapart : ∀ i j, (∃ n ∈ varsAt signature i, n ∈ varsAt signature j) → i = j) :
    SameOrder signature (fillOrder signature.arity groups) (fillOrder signature.arity groups') := by
  intro i j hij
  cases hapart i j hij
  refine iff_of_false (fun hsub => ?_) fun hsub => ?_
  · simpa using hsub.nodup hsupply.nodup_fillOrder
  · simpa using hsub.nodup hsupply'.nodup_fillOrder

/-- Chains do not agree if arguments pass in the order of one of them only. -/
theorem not_callsAgree {b : Bindings}
    (hruns : Runs (Passes w.heap signature env)
      (arrived (List.range signature.arity) groups) ∅ b)
    (hfail : ∀ b', ¬ Runs (Passes w.heap signature env)
      (arrived (List.range signature.arity) groups') ∅ b') (depth : Nat) (g : Value) :
    ¬ CallsAgree signature env body depth g w xs groups groups' := by
  rintro (⟨b', _, hruns', _⟩ | ⟨⟨d, _, _, hd, _⟩, _⟩)
  · exact hfail b' hruns'
  · exact hd.not_runs b hruns

end SameOrder

/-! ## Every order is possible -/

/-- Placeholders let an argument go to any open slot. -/
theorem exists_taken {slots : List Nat} {v : Value} (hv : v.isPlaceholder = false)
    {i : Nat} (hi : i ∈ slots) :
    ∃ args, InArity slots args ∧ taken slots args = [(v, i)] := by
  obtain ⟨front, back, rfl⟩ := List.append_of_mem hi
  let skipped := front.map fun _ => Value.placeholder
  have hskipped : (skipped.zip front).filter (fun p => !p.1.isPlaceholder) = [] := by
    refine List.filter_eq_nil_iff.2 fun p hp => ?_
    obtain ⟨_, _, heq⟩ := List.mem_map.1 (List.of_mem_zip hp).1
    simp [← heq, Value.isPlaceholder]
  refine ⟨skipped ++ [v], ⟨by simp [skipped], by simp⟩, ?_⟩
  rw [taken, List.zip_append (by simp [skipped]), List.filter_append, hskipped]
  simp [hv]

/-- Arguments can arrive at their slots in any order, one with each call. -/
theorem exists_arrived {slots : List Nat} (hnodup : slots.Nodup)
    {ps : List (Value × Nat)} (hvalues : ∀ p ∈ ps, p.1.isPlaceholder = false)
    (hperm : (ps.map (·.2)).Perm slots) :
    ∃ groups, FillsAll slots groups ∧ arrived slots groups = ps := by
  -- by induction on what is still to arrive: it always goes to just the slots that are open
  induction ps generalizing slots with
  | nil =>
      obtain rfl := List.Perm.nil_eq hperm
      exact ⟨[[]], .last ⟨Nat.le_refl _, fun _ => rfl⟩ rfl, rfl⟩
  | cons p ps ih =>
      obtain ⟨v, i⟩ := p
      rw [List.forall_mem_cons] at hvalues
      rw [List.map_cons] at hperm
      obtain ⟨args, hargs, htaken⟩ := exists_taken hvalues.1 (hperm.subset List.mem_cons_self)
      have hrest : (ps.map (·.2)).Perm (left slots args) := by
        have hsplit := taken_append_left_perm hnodup args
        rw [htaken] at hsplit
        exact (List.perm_cons i).1 (hperm.trans hsplit.symm)
      cases ps with
      | nil => exact ⟨[args], .last hargs (List.Perm.nil_eq hrest).symm, by simp [arrived, htaken]⟩
      | cons q ps =>
          obtain ⟨groups, hfills, harrived⟩ :=
            ih ((left_sublist slots args).nodup hnodup) hvalues.2 hrest
          have hopen : left slots args ≠ [] := by
            intro hnil
            rw [hnil] at hrest
            cases hrest.eq_nil
          exact ⟨args :: groups, .more hargs hopen hfills, by rw [arrived, htaken, harrived]; rfl⟩

/-- A function can be supplied with values for its slots in any order. -/
theorem exists_supplies {arity : Nat} {value : Nat → Value}
    (hvalues : ∀ i, (value i).isPlaceholder = false) {order : List Nat}
    (horder : order.Perm (List.range arity)) :
    ∃ groups, Supplies arity groups ((List.range arity).map value) ∧
      arrived (List.range arity) groups = order.map fun i => (value i, i) := by
  have hslots : ((order.map fun i => (value i, i)).map (·.2)).Perm (List.range arity) := by
    rw [List.map_map]
    exact (List.map_id order).symm ▸ horder
  obtain ⟨groups, hfills, harrived⟩ :=
    exists_arrived List.nodup_range (by simp [hvalues]) hslots
  refine ⟨groups, ⟨hfills, by simp, fun p hp => ?_⟩, harrived⟩
  rw [harrived] at hp
  obtain ⟨i, hi, rfl⟩ := List.mem_map.1 hp
  have hlt : i < arity := List.mem_range.1 (horder.mem_iff.1 hi)
  simp [hlt]

/-- A world with one function, of the given definition. -/
def worldOf (h : Heap) (signature : Signature) (env : List Ty) (body : Body) : World :=
  ⟨h, #[.applied ⟨signature, env, body, List.replicate signature.arity none, some 0⟩],
    #[default], ∅⟩

theorem defines_worldOf (h : Heap) (signature : Signature) (env : List Ty)
    (body : Body) :
    (worldOf h signature env body).Defines 0 signature env true body := by
  refine ⟨_, rfl, rfl, rfl, rfl, rfl, rfl, ?_, ?_⟩
  · rintro i ⟨⟩
    exact Nat.zero_lt_one
  · rintro i ⟨⟩
    rfl

/-! ## Functions of bare variables -/

/-- Holds `[[]]` as its array 0 and `[[true], [null]]` as its array 2. -/
def nestedArrays : Heap :=
  ⟨#[[.array 1], [], [.array 3, .array 4], [.bool true], [.null]], #[]⟩

/-- The only type of `[[]]`. -/
def arraysOfAnything : Ty := Builtin.array (Builtin.array .unknown)

/-- Whether the given variables are bound to `arraysOfAnything`, and no others are
bound. -/
def BoundLoosely (bound : List String) (b : Bindings) : Prop :=
  ∀ name, b.types? name = if name ∈ bound then some [arraysOfAnything] else none

theorem narrowed_of_boundLoosely {bound : List String} {b : Bindings}
    (hb : BoundLoosely bound b) {name : String} {v : Value}
    (hv : v = .array 0 ∨ v = .array 2 ∧ name ∈ bound) :
    Scope.narrowed ⟨nestedArrays, Builtin.environment, ∅⟩ name 0 [v] b = [arraysOfAnything] := by
  unfold Scope.narrowed
  rw [Bindings.contains_eq, hb name]
  rcases hv with rfl | ⟨rfl, hname⟩
  · split <;> rfl
  · rw [if_pos hname]
    rfl

theorem narrowed_mixed (name : String) :
    Scope.narrowed ⟨nestedArrays, Builtin.environment, ∅⟩ name 0 [.array 2] ∅ = [] := by
  rw [← List.isEmpty_iff]
  -- nothing is bound, so it does not matter which variable it is
  change (Scope.narrowed ⟨nestedArrays, Builtin.environment, ∅⟩ "" 0 [.array 2] ∅).isEmpty = true
  decide +kernel

section BareVariables

variable {signature : Signature} {names : List String} (hconstraints : signature.constraints = ∅)
  (hparams : signature.params = names.map (.var · []))

include hconstraints hparams

theorem passes_variable_iff {h : Heap} {env : List Ty} {v : Value} {i : Nat}
    {name : String} (hi : names[i]? = some name) {b b' : Bindings} :
    Passes h signature env (v, i) b b' ↔
      Scope.narrowed ⟨h, env, ∅⟩ name 0 [v] b ≠ [] ∧
      b' = (b.observe name (.root i) [v]).bind name (Scope.narrowed ⟨h, env, ∅⟩ name 0 [v] b) := by
  have hparam : signature.params[i]? = some (.var name []) := by
    rw [hparams, List.getElem?_map, hi]
    rfl
  rw [Passes, Signature.argumentVerdict, hparam, hconstraints]
  simp only [Scope.succeeds_satisfy_var, Scope.succeeds_satisfyVariable,
    Scope.succeeds_satisfyParams_nil]
  have hclasses : ((∅ : Constraints).find? name).getD [] = [] := rfl
  simp [hclasses]

theorem passes_of_boundLoosely {bound : List String} {b : Bindings}
    (hb : BoundLoosely bound b) {v : Value} {i : Nat} {name : String}
    (hi : names[i]? = some name) (hv : v = .array 0 ∨ v = .array 2 ∧ name ∈ bound) :
    ∃ b', Passes nestedArrays signature Builtin.environment (v, i) b b' ∧
      BoundLoosely (name :: bound) b' := by
  have hnarrowed := narrowed_of_boundLoosely hb hv
  refine ⟨_, (passes_variable_iff hconstraints hparams hi).2 ⟨by simp [hnarrowed], rfl⟩, ?_⟩
  intro n
  rw [hnarrowed, Bindings.types?_bind]
  by_cases hn : name = n
  · simp [hn]
  · rw [if_neg hn, Bindings.types?_observe hn, hb n]
    simp [Ne.symm hn]

/-- Arguments pass, whatever their order, if the variables of those that are mixed are
bound. -/
theorem runs_of_boundLoosely {bound : List String} {b : Bindings} (hb : BoundLoosely bound b)
    {ps : List (Value × Nat)}
    (hps : ∀ p ∈ ps, ∃ name, names[p.2]? = some name ∧
      (p.1 = .array 0 ∨ p.1 = .array 2 ∧ name ∈ bound)) :
    ∃ b' bound', Runs (Passes nestedArrays signature Builtin.environment) ps b b' ∧
      BoundLoosely bound' b' ∧ bound ⊆ bound' ∧
      ∀ p ∈ ps, ∀ name, names[p.2]? = some name → name ∈ bound' := by
  induction ps generalizing bound b with
  | nil => exact ⟨b, bound, rfl, hb, fun _ hn => hn, nofun⟩
  | cons p ps ih =>
      rw [List.forall_mem_cons] at hps
      obtain ⟨⟨name, hname, hv⟩, hps⟩ := hps
      obtain ⟨b₁, hpass, hb₁⟩ := passes_of_boundLoosely hconstraints hparams hb hname hv
      obtain ⟨b', bound', hruns, hb', hsub, hbound⟩ := ih hb₁ fun p hp => by
        obtain ⟨n, hn, hv⟩ := hps p hp
        exact ⟨n, hn, hv.imp_right fun hv => ⟨hv.1, List.mem_cons_of_mem _ hv.2⟩⟩
      rw [List.cons_subset] at hsub
      refine ⟨b', bound', ⟨b₁, hpass, hruns⟩, hb', hsub.2, List.forall_mem_cons.2 ⟨?_, hbound⟩⟩
      intro n hn
      cases hname.symm.trans hn
      exact hsub.1

/-- If two slots share their variable, then there are arguments that pass in one order
and not in another. -/
theorem exists_order_sensitive (hdup : ¬ names.Nodup) :
    ∃ (value : Nat → Value) (order order' : List Nat),
      (∀ i, (value i).isPlaceholder = false) ∧ order.Perm (List.range signature.arity) ∧
      order'.Perm (List.range signature.arity) ∧
      (∃ b, Runs (Passes nestedArrays signature Builtin.environment)
        (order.map fun i => (value i, i)) ∅ b) ∧
      ∀ b, ¬ Runs (Passes nestedArrays signature Builtin.environment)
        (order'.map fun i => (value i, i)) ∅ b := by
  rw [List.nodup_iff_getElem?_ne_getElem?] at hdup
  push Not at hdup
  obtain ⟨i, j, hij, hj, hsame⟩ := hdup
  obtain ⟨name, hname⟩ : ∃ name, names[j]? = some name := ⟨_, List.getElem?_eq_getElem hj⟩
  have harity : signature.arity = names.length := by simp [Signature.arity, hparams]
  -- the mixed argument goes to slot `j`, and `[[]]` to every other slot, `i` among them
  let value (k : Nat) : Value := if k = j then .array 2 else .array 0
  let others := (List.range names.length).erase j
  have hothers : ∀ k, k ∈ others ↔ k ≠ j ∧ k < names.length := by
    intro k
    rw [List.nodup_range.mem_erase_iff, List.mem_range]
  have hslots : (j :: others).Perm (List.range signature.arity) := by
    rw [harity]
    exact (List.perm_cons_erase (List.mem_range.2 hj)).symm
  refine ⟨value, others ++ [j], j :: others, fun k => ?_,
    (List.perm_append_singleton j others).trans hslots, hslots, ?_, ?_⟩
  · by_cases hk : k = j <;> simp [value, hk, Value.isPlaceholder]
  · have hempty : BoundLoosely [] ∅ := fun _ => rfl
    have hps : ∀ p ∈ others.map fun k => (value k, k), ∃ name, names[p.2]? = some name ∧
        (p.1 = .array 0 ∨ p.1 = .array 2 ∧ name ∈ []) := by
      intro p hp
      obtain ⟨k, hk, rfl⟩ := List.mem_map.1 hp
      exact ⟨_, List.getElem?_eq_getElem ((hothers k).1 hk).2, .inl (if_neg ((hothers k).1 hk).1)⟩
    obtain ⟨b, bound, hruns, hb, _, hbound⟩ :=
      runs_of_boundLoosely hconstraints hparams hempty hps
    have hi : (value i, i) ∈ others.map fun k => (value k, k) :=
      List.mem_map.2 ⟨i, (hothers i).2 ⟨by omega, by omega⟩, rfl⟩
    obtain ⟨b', hpass, _⟩ := passes_of_boundLoosely hconstraints hparams hb hname
      (.inr ⟨if_pos rfl, hbound _ hi name (hsame.trans hname)⟩)
    rw [List.map_append]
    exact ⟨b', runs_append.2 ⟨b, hruns, b', hpass, rfl⟩⟩
  · rintro b ⟨b₁, hpass, _⟩
    have hvalue : value j = .array 2 := if_pos rfl
    change Passes _ _ _ (value j, j) ∅ b₁ at hpass
    rw [hvalue] at hpass
    exact ((passes_variable_iff hconstraints hparams hname).1 hpass).1 (narrowed_mixed name)

/-- There are then chains of calls that supply the same arguments, and only one of them
runs the body. -/
theorem exists_not_callsAgree (hdup : ¬ names.Nodup) (body : Body) :
    ∃ (w : World) (f : Nat) (groups groups' : List (List Value)) (xs : List Value),
      w.Defines f signature Builtin.environment true body ∧
      Supplies signature.arity groups xs ∧ Supplies signature.arity groups' xs ∧
      ∀ depth g,
        ¬ CallsAgree signature Builtin.environment body depth g w xs groups groups' := by
  obtain ⟨value, order, order', hvalues, horder, horder', ⟨b, hruns⟩, hfail⟩ :=
    exists_order_sensitive hconstraints hparams hdup
  obtain ⟨groups, hsupply, harrived⟩ := exists_supplies hvalues horder
  obtain ⟨groups', hsupply', harrived'⟩ := exists_supplies hvalues horder'
  rw [← harrived] at hruns
  simp only [← harrived'] at hfail
  exact ⟨_, 0, groups, groups', _, defines_worldOf nestedArrays signature Builtin.environment body,
    hsupply, hsupply', not_callsAgree hruns hfail⟩

omit hconstraints in
theorem mem_varsAt {i : Nat} {n : String} :
    n ∈ varsAt signature i ↔ names[i]? = some n := by
  rw [varsAt, hparams, List.getElem?_map]
  cases names[i]? with
  | none => simp
  | some name => simp [Ty.vars, Ty.varsAll, eq_comm]

omit hconstraints in
theorem eq_of_share (hnodup : names.Nodup) (i j : Nat)
    (hshare : ∃ n ∈ varsAt signature i, n ∈ varsAt signature j) : i = j := by
  obtain ⟨n, hi, hj⟩ := hshare
  rw [mem_varsAt hparams] at hi hj
  have hlt := (List.getElem?_eq_some_iff.1 hi).1
  exact (List.getElem?_inj hlt hnodup).1 (hi.trans hj.symm)

end BareVariables

/-! ## Agreement of chains -/

/-- The function that returns its first argument, declared to take a variable in each
slot. -/
def firstOf (name name' : String) : Signature :=
  ⟨"first", ∅, [.var name [], .var name' []], .var name [], by simp [maxArity]⟩

theorem supplies_in_order (first second : Nat) :
    Supplies 2 [[.array first, .array second]] [.array first, .array second] := by
  have harrived : arrived (List.range 2) [[.array first, .array second]] =
      [(.array first, 0), (.array second, 1)] := rfl
  exact ⟨.last ⟨by simp, by simp⟩ rfl, rfl, by simp [harrived]⟩

theorem supplies_second_first (first second : Nat) :
    Supplies 2 [[.placeholder, .array second], [.array first]] [.array first, .array second] := by
  have hleft : left (List.range 2) [.placeholder, .array second] = [0] := rfl
  have harrived : arrived (List.range 2) [[.placeholder, .array second], [.array first]] =
      [(.array second, 1), (.array first, 0)] := rfl
  exact ⟨.more ⟨by simp, by simp⟩ (by simp [hleft]) (.last ⟨by simp [hleft], by simp⟩ rfl), rfl,
    by simp [harrived]⟩

/-- Chains of calls that supply a function with the same arguments both run its body, on
these arguments and with the same bindings, or are both refused, if slots that share a
variable are filled in the same order. If the function takes a bare variable in each
slot, then the order never matters exactly if no two slots share their variable. -/
theorem chains_agree (signature : Signature) (body : Body) :
    (∀ (env : List Ty) (w : World) (f : Nat) (groups groups' : List (List Value)) (xs : List Value),
      w.Defines f signature env true body →
      Supplies signature.arity groups xs → Supplies signature.arity groups' xs →
      SameOrder signature (fillOrder signature.arity groups) (fillOrder signature.arity groups') →
      ∀ (depth : Nat) (info : FunctionInfo),
        CallsAgree signature env body depth (.function f info) w xs groups groups') ∧
    ∀ names : List String, signature.constraints = ∅ →
      signature.params = names.map (.var · []) →
      ((∀ (w : World) (f : Nat) (groups groups' : List (List Value)) (xs : List Value),
        w.Defines f signature Builtin.environment true body →
        Supplies signature.arity groups xs → Supplies signature.arity groups' xs →
        ∀ (depth : Nat) (info : FunctionInfo),
          CallsAgree signature Builtin.environment body depth (.function f info) w xs groups
            groups') ↔
      names.Nodup) := by
  constructor
  · intro env w f groups groups' xs hdefines hsupply hsupply' horder depth info
    exact callsAgree_of_sameOrder hsupply hsupply' horder hdefines depth info
  · intro names hconstraints hparams
    constructor
    · intro hall
      by_contra hdup
      obtain ⟨w, f, groups, groups', xs, hdefines, hsupply, hsupply', hnot⟩ :=
        exists_not_callsAgree hconstraints hparams hdup body
      exact hnot 0 _ (hall w f groups groups' xs hdefines hsupply hsupply' 0 ⟨"", 0, none⟩)
    · intro hnodup w f groups groups' xs hdefines hsupply hsupply' depth info
      exact callsAgree_of_sameOrder hsupply hsupply'
        (hsupply.sameOrder hsupply' (eq_of_share hparams hnodup)) hdefines depth info

/-- The two arguments of two variables come together, or the second one first. -/
theorem chains_agree_first :
    (firstOf "a" "b").constraints = ∅ ∧
    (firstOf "a" "b").params = ["a", "b"].map (.var · []) ∧
    CallsAgree (firstOf "a" "b") Builtin.environment ⟨.arg 0 0, []⟩ 0
      (.function 0 ⟨"first", 2, none⟩)
      (worldOf nestedArrays (firstOf "a" "b") Builtin.environment ⟨.arg 0 0, []⟩)
      [.array 0, .array 1] [[.array 0, .array 1]] [[.placeholder, .array 1], [.array 0]] ∧
    ∀ (w : World) (f : Nat) (groups groups' : List (List Value)) (xs : List Value),
      w.Defines f (firstOf "a" "b") Builtin.environment true ⟨.arg 0 0, []⟩ →
      Supplies 2 groups xs → Supplies 2 groups' xs → ∀ (depth : Nat) (info : FunctionInfo),
        CallsAgree (firstOf "a" "b") Builtin.environment ⟨.arg 0 0, []⟩ depth (.function f info) w
          xs groups groups' := by
  have hparams : (firstOf "a" "b").params = ["a", "b"].map (.var · []) := rfl
  have hin : Supplies (firstOf "a" "b").arity _ _ := supplies_in_order 0 1
  have hsecond : Supplies (firstOf "a" "b").arity _ _ := supplies_second_first 0 1
  have horder := hin.sameOrder hsecond (eq_of_share hparams (by decide))
  have hagree := chains_agree (firstOf "a" "b") ⟨.arg 0 0, []⟩
  exact ⟨rfl, hparams, hagree.1 _ _ _ _ _ _ (defines_worldOf _ _ _ _) hin hsecond horder 0 _,
    (hagree.2 _ rfl hparams).2 (by decide)⟩

/-- The first argument binds the variable to arrays of arrays of anything, which the
second one is. By itself the second one has no type. So the body is run if they come
together, and the second one is refused if it comes first. -/
theorem chains_disagree :
    ∃ (signature : Signature) (body : Body) (w : World) (f : Value) (xs : List Value)
      (groups groups' : List (List Value)),
      signature = firstOf "a" "a" ∧ w.heap = nestedArrays ∧ groups = [[.array 0, .array 2]] ∧
      groups' = [[.placeholder, .array 2], [.array 0]] ∧ f = .function 0 ⟨"first", 2, none⟩ ∧
      w.Defines 0 signature Builtin.environment true body ∧
      Supplies signature.arity groups xs ∧ Supplies signature.arity groups' xs ∧
      (∃ b, EndsInRun signature Builtin.environment body 0 b xs groups w
        (World.callAll 1 groups f w)) ∧
      EndsRefused signature Builtin.environment groups' w (World.callAll 1 groups' f w) ∧
      ¬ CallsAgree signature Builtin.environment body 0 f w xs groups groups' := by
  let s := firstOf "a" "a"
  have hparams : s.params = ["a", "a"].map (.var · []) := rfl
  have hempty : BoundLoosely [] ∅ := fun _ => rfl
  obtain ⟨b₁, hfirst, hb₁⟩ := passes_of_boundLoosely (i := 0) rfl hparams hempty rfl (.inl rfl)
  obtain ⟨b₂, hsecond, _⟩ :=
    passes_of_boundLoosely (i := 1) rfl hparams hb₁ rfl (.inr ⟨rfl, List.mem_cons_self⟩)
  have hruns : Runs (Passes nestedArrays s Builtin.environment)
      (arrived (List.range 2) [[.array 0, .array 2]]) ∅ b₂ := ⟨b₁, hfirst, b₂, hsecond, rfl⟩
  have hfail : ∀ b, ¬ Runs (Passes nestedArrays s Builtin.environment)
      (arrived (List.range 2) [[.placeholder, .array 2], [.array 0]]) ∅ b := by
    rintro b ⟨b', hpass, _⟩
    exact ((passes_variable_iff rfl hparams rfl).1 hpass).1 (narrowed_mixed "a")
  have hdefines := defines_worldOf nestedArrays s Builtin.environment ⟨.arg 0 0, []⟩
  have hin : Supplies s.arity _ _ := supplies_in_order 0 2
  have hlate : Supplies s.arity _ _ := supplies_second_first 0 2
  refine ⟨s, _, _, _, _, _, _, rfl, rfl, rfl, rfl, rfl, hdefines, hin, hlate, ?_, ?_,
    not_callsAgree hruns hfail 0 _⟩
  · rcases hin.runs_or_refused hdefines 0 ⟨"first", 2, none⟩ with hend | ⟨_, _, _, hd, _⟩
    · exact hend
    · exact absurd hruns (hd.not_runs b₂)
  · rcases hlate.runs_or_refused hdefines 0 ⟨"first", 2, none⟩ with ⟨b, hruns', _⟩ | hend
    · exact absurd hruns' (hfail b)
    · exact hend

end DynamicTypes.Application
