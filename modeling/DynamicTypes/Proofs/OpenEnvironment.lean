import Mathlib.Data.List.Pairwise
import DynamicTypes.Proofs.Classification
import DynamicTypes.Proofs.Membership

/-!
# Open environments, and the types that classification makes of them

An environment is *open* when its entries leave all their parameters unknown and no
two of them share a name. The types that come out of classification are then all
built in one way: an entry with its parameters filled by such types, or the type
of a tag that some object carries.

Types are compared by their names and components only, and two descriptors with one
name may have different predicates. Among the types that arise this cannot happen,
unless an object carries the name of an entry without parameters as its tag: there
the name and the number of parameters determine the constructor (`Arises.con_ext`),
and equality of types is as good as equality of descriptors.
-/

namespace DynamicTypes

/-- Whether a type can be an entry of an open environment. -/
def Ty.isOpen : Ty → Bool
  | con _ _ params => params.all isUnknown
  | enumeration _ => true
  | record r _ _ => r.name.isSome
  | _ => false

/-- An environment whose entries are open and have names of their own. -/
structure OpenEnvironment (env : List Ty) : Prop where
  isOpen : ∀ t ∈ env, t.isOpen = true
  names : env.Pairwise fun t u => t.name? ≠ u.name?

/-- The builtin types form an open environment. -/
theorem openEnvironment_builtin : OpenEnvironment Builtin.environment where
  isOpen := by decide
  names := by decide

/-- No object carries the name of an entry without parameters as its tag. -/
def TagsApart (env : List Ty) (h : Heap) : Prop :=
  ∀ (c : Constructor) (supers : List Ty), .con c supers [] ∈ env →
    ∀ o : Nat, (h.object o).tag ≠ some c.name

/-- The types that classification makes of an environment. -/
inductive Arises (env : List Ty) (h : Heap) : Ty → Prop where
  | unknown : Arises env h .unknown
  | inconsistent : Arises env h .inconsistent
  | foreign {tag : String} (o : Nat) (htag : (h.object o).tag = some tag) :
      Arises env h (.foreign tag)
  | con {c : Constructor} {supers params : List Ty} (entry : List Ty)
      (hmem : .con c supers entry ∈ env) (hlen : params.length = entry.length)
      (hparams : ∀ p ∈ params, Arises env h p) : Arises env h (.con c supers params)
  | enumeration {e : Enumeration} (hmem : .enumeration e ∈ env) : Arises env h (.enumeration e)
  | record {r : RecordName} {supers : List Ty} {fields : List (String × Ty)}
      (hmem : .record r supers fields ∈ env) : Arises env h (.record r supers fields)

variable {env : List Ty} {h : Heap}

namespace OpenEnvironment

/-- An entry is determined by its name. -/
theorem eq_of_name (henv : OpenEnvironment env) {t u : Ty} (ht : t ∈ env) (hu : u ∈ env)
    (hname : t.name? = u.name?) : t = u := by
  have : Std.Symm fun t u : Ty => t.name? ≠ u.name? := ⟨fun _ _ => Ne.symm⟩
  by_contra hne
  exact henv.names.forall ht hu hne hname

/-- The parameters of an entry are unknown. -/
theorem eq_unknown (henv : OpenEnvironment env) {c : Constructor}
    {supers params : List Ty} (hmem : .con c supers params ∈ env) {p : Ty}
    (hp : p ∈ params) : p = .unknown := by
  have hopen := List.all_eq_true.1 (henv.isOpen _ hmem) p hp
  exact Ty.isUnknown_iff.1 hopen

theorem getElem?_params (henv : OpenEnvironment env) {t : Ty} (ht : t ∈ env) {i : Nat}
    (hi : i < t.arity) : t.params[i]? = some .unknown := by
  have hopen := henv.isOpen t ht
  cases t with
  | con c supers params =>
      have hp : params[i]? = some params[i] := List.getElem?_eq_getElem hi
      exact hp.trans (congrArg some (henv.eq_unknown ht (List.mem_of_getElem? hp)))
  | enumeration | record => cases hi
  | _ => cases hopen

/-- The entries themselves are among the types that arise. -/
theorem arises (henv : OpenEnvironment env) {t : Ty} (ht : t ∈ env) :
    Arises env h t := by
  have hopen := henv.isOpen t ht
  cases t with
  | con c supers params =>
      refine .con params ht rfl fun p hp => ?_
      rw [henv.eq_unknown ht hp]
      exact .unknown
  | enumeration e => exact .enumeration ht
  | record r supers fields => exact .record ht
  | _ => cases hopen

theorem exists_name (henv : OpenEnvironment env) {t : Ty} (ht : t ∈ env) :
    ∃ name, t.name? = some name := by
  have hopen := henv.isOpen t ht
  cases t with
  | con c supers params => exact ⟨c.name, rfl⟩
  | enumeration e => exact ⟨e.name, rfl⟩
  | record r supers fields => exact Option.isSome_iff_exists.1 hopen
  | _ => cases hopen

/-- The instances of an entry that a value gives: all parameters are types of what the
value holds there, and an entry without parameters is its own instance. -/
theorem mem_expandBy (henv : OpenEnvironment env) {e : Ty} (he : e ∈ env)
    {determine : List Value → List Ty} {v : Value} {t : Ty}
    (ht : t ∈ Classification.expandBy h determine 0 e v) :
    (∃ c supers ps qs, e = .con c supers ps ∧ t = .con c supers qs ∧ qs.length = ps.length ∧
      ∀ (i : Nat) (q : Ty), qs[i]? = some q → q ∈ determine (c.held i h v)) ∨
    ((∃ en, e = .enumeration en) ∨ ∃ r supers fields, e = .record r supers fields) ∧ t = e := by
  have hopen := henv.isOpen e he
  cases e with
  | con c supers ps =>
      obtain ⟨qs, rfl, hlen, hqs⟩ := Classification.mem_expandBy_con.1 ht
      refine .inl ⟨c, supers, ps, qs, rfl, rfl, hlen, fun i q hq => ?_⟩
      have hi : i < ps.length := hlen ▸ (List.getElem?_eq_some_iff.1 hq).1
      have hp := List.getElem?_eq_getElem hi
      have hmem := hqs i _ q hp hq
      rwa [henv.eq_unknown he (List.mem_of_getElem? hp),
        if_pos (by simpa [Ty.isUnknown] using hi)] at hmem
  | enumeration en =>
      rw [Classification.expandBy_of_params rfl, List.mem_singleton] at ht
      exact .inr ⟨.inl ⟨en, rfl⟩, ht⟩
  | record r supers fields =>
      rw [Classification.expandBy_of_params rfl, List.mem_singleton] at ht
      exact .inr ⟨.inr ⟨r, supers, fields, rfl⟩, ht⟩
  | _ => cases hopen

end OpenEnvironment

namespace Arises

/-- The applied constructors that arise are those of tags and those of the
environment. -/
theorem con_cases {c : Constructor} {supers params : List Ty}
    (ht : Arises env h (.con c supers params)) :
    (∃ o tag, (h.object o).tag = some tag ∧ Ty.con c supers params = .foreign tag) ∨
    (∃ entry, .con c supers entry ∈ env ∧ params.length = entry.length ∧
      ∀ p ∈ params, Arises env h p) := by
  generalize hu : Ty.con c supers params = u at ht
  cases ht with
  | foreign o htag => exact .inl ⟨o, _, htag, rfl⟩
  | con entry hmem hlen hparams =>
      cases hu
      exact .inr ⟨entry, hmem, hlen, hparams⟩
  | _ => cases hu

theorem param {c : Constructor} {supers params : List Ty}
    (ht : Arises env h (.con c supers params)) {p : Ty} (hp : p ∈ params) :
    Arises env h p := by
  rcases ht.con_cases with ⟨_, _, _, heq⟩ | ⟨_, _, _, hparams⟩
  · cases heq
    cases hp
  · exact hparams p hp

theorem withParams {c : Constructor} {supers ps qs : List Ty}
    (ht : Arises env h (.con c supers ps)) (hlen : qs.length = ps.length)
    (hqs : ∀ q ∈ qs, Arises env h q) : Arises env h (.con c supers qs) := by
  rcases ht.con_cases with ⟨_, _, _, heq⟩ | ⟨entry, hmem, hentry, _⟩
  · cases heq
    rw [List.length_eq_zero_iff.1 hlen]
    exact ht
  · exact .con entry hmem (hlen.trans hentry) hqs

/-- Among the types that arise, the name and the number of parameters tell the
constructor. -/
theorem con_ext (henv : OpenEnvironment env) (htags : TagsApart env h)
    {c d : Constructor} {ss ss' ps qs : List Ty} (hc : Arises env h (.con c ss ps))
    (hd : Arises env h (.con d ss' qs)) (hname : c.name = d.name)
    (hlen : ps.length = qs.length) : c = d ∧ ss = ss' := by
  rcases hc.con_cases with ⟨o, tag, ho, heq⟩ | ⟨entry, hmem, hentry, _⟩
  · cases heq
    rcases hd.con_cases with ⟨_, tag', _, heq'⟩ | ⟨entry', hmem', hentry', _⟩
    · cases heq'
      obtain rfl : tag = tag' := hname
      exact ⟨rfl, rfl⟩
    · -- the type of a tag has no parameters, so the entry would have none
      rw [hentry', List.length_nil] at hlen
      rw [List.length_eq_zero_iff.1 hlen.symm] at hmem'
      exact absurd (hname ▸ ho) (htags d ss' hmem' o)
  · rcases hd.con_cases with ⟨o', tag', ho', heq'⟩ | ⟨entry', hmem', hentry', _⟩
    · cases heq'
      rw [hentry, List.length_nil] at hlen
      rw [List.length_eq_zero_iff.1 hlen] at hmem
      exact absurd (hname ▸ ho') (htags c ss hmem o')
    · have := henv.eq_of_name hmem hmem' (congrArg some hname)
      cases this
      exact ⟨rfl, rfl⟩

theorem mergedAll {ps qs ms : List Ty} (hms : Ty.MergedAll ps qs ms)
    (hps : ∀ p ∈ ps, Arises env h p) (hqs : ∀ q ∈ qs, Arises env h q)
    (ih : ∀ p ∈ ps, ∀ q m, Arises env h p → Arises env h q → Ty.merge? p q = some m →
      Arises env h m) : ∀ m ∈ ms, Arises env h m := by
  induction hms with
  | nil => simp
  | cons head _ ih' =>
      rw [List.forall_mem_cons] at hps hqs ih ⊢
      exact ⟨ih.1 _ _ hps.1 hqs.1 head, ih' hps.2 hqs.2 ih.2⟩

/-- What is merged from types that arise arises. -/
theorem merge {t u m : Ty} (ht : Arises env h t) (hu : Arises env h u)
    (hm : Ty.merge? t u = some m) : Arises env h m := by
  induction t generalizing u m with
  | con c ss ps _ ih =>
      rcases Ty.merge_cases hm with ⟨heq, _⟩ | ⟨_, rfl⟩
        | ⟨c', d, ss', ss'', ps', qs, ms, heq, rfl, rfl, _, hms⟩ | ⟨a, ps', qs, ms, heq, _⟩
        | ⟨_, rfl⟩
      · cases heq
      · exact ht
      · cases heq
        have hms' := mergedAll hms (fun p hp => ht.param hp) (fun q hq => hu.param hq)
          fun p hp _ _ => ih p hp
        have hlen := (Ty.le_of_mergedAll hms fun _ _ _ _ => Ty.le_of_merge).1.length_eq
        exact ht.withParams hlen.symm hms'
      · cases heq
      · exact ht
  | unknown =>
      rw [Ty.merge_unknown_left] at hm
      cases hm
      exact hu
  | var => cases ht
  | _ =>
      rcases Ty.merge_cases hm with ⟨heq, _⟩ | ⟨_, rfl⟩ | ⟨_, _, _, _, _, _, _, heq, _⟩
        | ⟨_, _, _, _, heq, _⟩ | ⟨_, rfl⟩
      all_goals first | exact ht | cases heq

end Arises

end DynamicTypes
