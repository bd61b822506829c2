import DynamicTypes.Proofs.Reuse

/-!
# What holds of a session however it is used

A session is used from outside, by whoever checks arguments and results on it, and
from inside, by code that calls the callbacks it has wrapped. Neither sees the other.
Callbacks are kept, passed on and called long after the check that made them, they
are wrapped again on their way through other callbacks, and other sessions are at work
meanwhile.

`Keeps` is the invariant behind all of it. It has two parameters: what is known of a
type and the position where the session checks it, and what is known of the bindings.
If the first holds of the signature and goes from a function type to its slots, and
the second goes through every check, then both hold wherever a use of the session
may lead.
-/

namespace DynamicTypes

/-- What checks of arguments, passed or failed, and in any heaps, can make known of the
variables. -/
inductive Signature.Learned (s : Signature) (env : List Ty) : Bindings → Prop where
  | nothing : Learned s env ∅
  | argument {b : Bindings} (before : Learned s env b) (h : Heap) (index : Nat) (v : Value) :
      Learned s env (s.argumentVerdict h env index v b).bindings

namespace Session

/-- One thing that is done while a session is there, whether it ends in a result or in a
failure: this session or another one checks an argument or a result or wraps arguments,
or code is run. -/
inductive Use (s : Session) (w w' : World) : Prop where
  | argument (s' : Session) (own : s'.state = s.state → s' = s) (index : Nat) (v : Value)
      (left : (s'.checkArgument index v w).Leaves w')
  | result (s' : Session) (own : s'.state = s.state → s' = s)
      (there : s'.state < w.sessions.size) (v : Value) (left : (s'.checkResult v w).Leaves w')
  | wrap (s' : Session) (own : s'.state = s.state → s' = s)
      (there : s'.state < w.sessions.size) (i : Nat) (vs : List Value)
      (left : (s'.wrapArguments i vs w : Outcome Diagnostic (List Value)).Leaves w')
  | code (event : World.Event (.since (s.state + 1)) w w')

/-- The worlds that a session is used in. It is opened for a checker or for a call, or
it is a fork. -/
inductive Used : Session → World → Prop where
  | start {s : Session} {state : SessionState} {w w' : World} (closed : w.Closed)
      (learned : s.signature.Learned s.env state.bindings)
      (made : start s.signature s.env state w = (s, w')) : Used s w'
  | fork {s s' : Session} {w w' : World} (before : Used s w) (made : s.fork w = (s', w')) :
      Used s' w'
  | use {s : Session} {w w' : World} (before : Used s w) (use : s.Use w w') : Used s w'

end Session

namespace Signature

/-- Whether what is known of types at positions holds of the signature and of what
passes through a function, and what is known of bindings is kept by the checks at these
positions. -/
structure Maintains (s : Signature) (env : List Ty) (Place : Ty → Locus → Prop)
    (P : Bindings → Prop) : Prop where
  root : ∀ {i : Nat} {t : Ty}, s.types[i]? = some t → Place t (.root i)
  slot : ∀ {types : List Ty} {locus : Locus} {i : Nat} {t : Ty}, Place (.function types) locus →
    types[i]? = some t → Place t (locus.child (Ty.paramKey (i + 1)))
  nothing : P ∅
  check : ∀ {t : Ty} {locus : Locus} {b : Bindings} (h : Heap) (v : Value), Place t locus → P b →
    P (Scope.satisfy ⟨h, env, s.constraints⟩ t locus [v] b).bindings

theorem Learned.known {s : Signature} {env : List Ty} {Place : Ty → Locus → Prop}
    {P : Bindings → Prop} (hm : s.Maintains env Place P) {b : Bindings}
    (hb : s.Learned env b) :
    P b := by
  induction hb with
  | nothing => exact hm.nothing
  | @argument b _ h index v ih =>
      rw [argumentVerdict]
      split
      · exact ih
      · next t ht => exact hm.check h v (hm.root (types_of_params ht)) ih

end Signature

namespace Session

variable {s s' : Session} {Place : Ty → Locus → Prop} {P : Bindings → Prop} {w w' : World}

/-- The invariant: the session is there, the callbacks that refer to it are its own and
stand at positions of their types, and it knows what it may know. -/
structure Keeps (s : Session) (Place : Ty → Locus → Prop) (P : Bindings → Prop)
    (w : World) :
    Prop where
  closed : w.Closed
  kept : s.state < w.sessions.size
  contracts : ∀ c : Contract, .guarded c ∈ w.code → c.session.state = s.state →
    c.session = s ∧ Place (.function (c.params ++ [c.result])) c.locus
  known : P (s.bindings w)

/-! ## One check, one callback -/

theorem Keeps.checked (hm : s.signature.Maintains s.env Place P) {t : Ty}
    {locus : Locus} (hplace : s'.state = s.state → s' = s ∧ Place t locus) (v : Value)
    (hk : s.Keeps Place P w) :
    s.Keeps Place P (w.checked s' t locus v) := by
  have hsize : (w.checked s' t locus v).sessions.size = w.sessions.size := by
    simp [World.checked, World.setSession]
  refine ⟨fun c hc => hsize ▸ hk.closed c hc, hsize ▸ hk.kept, hk.contracts, ?_⟩
  by_cases hstate : s'.state = s.state
  · obtain ⟨hown, hplace⟩ := hplace hstate
    rw [hown, World.checked, bindings_record hk.kept]
    exact hm.check w.heap v hplace hk.known
  · rw [bindings_eq, World.checked, World.setSession, Array.getElem?_setIfInBounds_ne hstate,
      ← bindings_eq]
    exact hk.known

theorem Keeps.wrapped {types : List Ty} {result : Ty} {locus : Locus}
    (hthere : s'.state < w.sessions.size) (hlast : types.getLast? = some result)
    (hplace : s'.state = s.state → s' = s ∧ Place (.function types) locus) (inner : Nat)
    (hk : s.Keeps Place P w) :
    s.Keeps Place P
      { w with code := w.code.push (.guarded ⟨s', locus, types.dropLast, result, inner⟩) } := by
  refine ⟨fun c hc => ?_, hk.kept, fun c hc => ?_, hk.known⟩
  · rcases Array.mem_push.1 hc with hc | hnew
    · exact hk.closed c hc
    · cases hnew
      exact hthere
  · rcases Array.mem_push.1 hc with hc | hnew
    · exact hk.contracts c hc
    · cases hnew
      rw [List.dropLast_append_getLast? _ hlast]
      exact hplace

theorem Keeps.defined {code : Code} (hcode : ∀ c, code ≠ .guarded c)
    (hk : s.Keeps Place P w) :
    s.Keeps Place P { w with code := w.code.push code } := by
  have hold : ∀ c : Contract, .guarded c ∈ w.code.push code → .guarded c ∈ w.code := by
    intro c hc
    rcases Array.mem_push.1 hc with hc | hnew
    · exact hc
    · exact (hcode c hnew.symm).elim
  exact ⟨fun c hc => hk.closed c (hold c hc), hk.kept,
    fun c hc => hk.contracts c (hold c hc), hk.known⟩

theorem Keeps.opened (hk : s.Keeps Place P w) (state : SessionState) :
    s.Keeps Place P { w with sessions := w.sessions.push state } := by
  have hsize : w.sessions.size < (w.sessions.push state).size := by simp
  refine ⟨fun c hc => (hk.closed c hc).trans hsize, hk.kept.trans hsize, hk.contracts, ?_⟩
  rw [bindings_eq, Array.getElem?_push, if_neg (Nat.ne_of_lt hk.kept), ← bindings_eq]
  exact hk.known

/-! ## Running code -/

/-- Code that comes after the session works at its positions through callbacks only. -/
theorem Keeps.position (hm : s.signature.Maintains s.env Place P)
    (hk : s.Keeps Place P w) {t : Ty} {locus : Locus}
    (hplace : World.Position (World.Access.since (s.state + 1)).may w s' t locus)
    (hstate : s'.state = s.state) : s' = s ∧ Place t locus := by
  cases hplace with
  | declared opened _ =>
      have hlt : s.state < s'.state := opened.may_use
      omega
  | callback there declares =>
      obtain ⟨hown, hfunction⟩ := hk.contracts _ there hstate
      exact ⟨hown, hm.slot hfunction declares⟩

theorem Keeps.effect (hm : s.signature.Maintains s.env Place P)
    (heffect : World.Effect (World.Access.since (s.state + 1)).may w w')
    (hk : s.Keeps Place P w) :
    s.Keeps Place P w' := by
  cases heffect with
  | mutate => exact ⟨hk.closed, hk.kept, hk.contracts, hk.known⟩
  | define code unguarded => exact hk.defined unguarded
  | wrap place last inner =>
      exact hk.wrapped (place.lt_size hk.closed) last (hk.position hm place) inner
  | begin state => exact hk.opened state
  | keep a state => exact (hk.opened state).defined fun _ => Code.noConfusion
  | check place v => exact hk.checked hm (hk.position hm place) v

theorem Keeps.run (hm : s.signature.Maintains s.env Place P)
    (hrun : World.Run (.since (s.state + 1)) w w') (hk : s.Keeps Place P w) :
    s.Keeps Place P w' := by
  induction hrun with
  | refl => exact hk
  | tail _ heffect ih => exact ih.effect hm heffect

/-! ## Using the session -/

theorem Keeps.leaves_wrap {ε : Type} {t : Ty} {locus : Locus} {v : Value}
    (hthere : s'.state < w.sessions.size)
    (hplace : s'.state = s.state → s' = s ∧ Place t locus) (hk : s.Keeps Place P w)
    (hleft : (s'.wrap t locus v w : Outcome ε Value).Leaves w') :
    s.Keeps Place P w' ∧ w'.sessions = w.sessions := by
  rcases s'.wrap_cases (ε := ε) t locus v w with
    ⟨hdone, _⟩ | ⟨types, result, inner, seen, rfl, hlast, _, hdone⟩
  · rw [hdone] at hleft
    obtain rfl := Outcome.leaves_done.1 hleft
    exact ⟨hk, rfl⟩
  · rw [hdone] at hleft
    obtain rfl := Outcome.leaves_done.1 hleft
    exact ⟨hk.wrapped hthere hlast hplace inner, rfl⟩

/-- The positions of its own signature are good for the session. -/
theorem place_root (hm : s.signature.Maintains s.env Place P)
    (hown : s'.state = s.state → s' = s) {i : Nat} {t : Ty}
    (ht : s'.signature.types[i]? = some t) (hstate : s'.state = s.state) :
    s' = s ∧ Place t (.root i) := by
  obtain rfl := hown hstate
  exact ⟨rfl, hm.root ht⟩

theorem Keeps.argument (hm : s.signature.Maintains s.env Place P)
    (hown : s'.state = s.state → s' = s) {index : Nat} {v : Value}
    (hk : s.Keeps Place P w) (hleft : (s'.checkArgument index v w).Leaves w') :
    s.Keeps Place P w' := by
  cases ht : s'.signature.params[index]? with
  | some t =>
      rw [checkArgument_eq_check ht] at hleft
      rw [← leaves_conclude.1 hleft]
      exact hk.checked hm (place_root hm hown (Signature.types_of_params ht)) v
  | none =>
      have hw' := leaves_conclude.1 hleft
      simp only [Signature.argumentVerdict, ht] at hw'
      rw [bindings, setSession_record] at hw'
      exact hw' ▸ hk

theorem Keeps.result (hm : s.signature.Maintains s.env Place P)
    (hown : s'.state = s.state → s' = s) (hthere : s'.state < w.sessions.size)
    {v : Value} (hk : s.Keeps Place P w) (hleft : (s'.checkResult v w).Leaves w') :
    s.Keeps Place P w' := by
  have hplace := place_root hm hown s'.signature.types_arity
  have hchecked : ∀ w₁, (s'.check s'.signature.result (.root s'.signature.arity) v w).Leaves w₁ →
      s.Keeps Place P w₁ ∧ s'.state < w₁.sessions.size := by
    intro w₁ hleft
    rw [← leaves_conclude.1 hleft]
    refine ⟨hk.checked hm hplace v, ?_⟩
    simpa [World.setSession] using hthere
  rcases Action.leaves_bind hleft with ⟨_, w₁, hdone, hleft⟩ | ⟨d, hfailed⟩
  · obtain ⟨hk₁, hthere₁⟩ := hchecked w₁ (.inl ⟨_, hdone⟩)
    exact (hk₁.leaves_wrap hthere₁ hplace hleft).1
  · exact (hchecked w' (.inr ⟨d, hfailed⟩)).1

theorem Keeps.wrapArguments {ε : Type} (hm : s.signature.Maintains s.env Place P)
    (hown : s'.state = s.state → s' = s) (hthere : s'.state < w.sessions.size) {i : Nat}
    {vs : List Value} (hk : s.Keeps Place P w)
    (hleft : (s'.wrapArguments i vs w : Outcome ε (List Value)).Leaves w') :
    s.Keeps Place P w' := by
  induction vs generalizing i w w' with
  | nil => exact Outcome.leaves_done.1 hleft ▸ hk
  | cons v rest ih =>
      have hrest : ∀ (v : Value) (w₁ : World), s.Keeps Place P w₁ ∧ w₁.sessions = w.sessions →
          (((do let rest ← s'.wrapArguments (i + 1) rest; pure (v :: rest)) :
            Action ε (List Value)) w₁).Leaves w' → s.Keeps Place P w' := by
        intro v w₁ hk₁ hleft
        have hthere₁ : s'.state < w₁.sessions.size := hk₁.2 ▸ hthere
        rcases Action.leaves_bind hleft with ⟨vs, w₂, hdone, hleft⟩ | ⟨e, hfailed⟩
        · exact Outcome.leaves_done.1 hleft ▸ ih hthere₁ hk₁.1 (.inl ⟨vs, hdone⟩)
        · exact ih hthere₁ hk₁.1 (.inr ⟨e, hfailed⟩)
      rw [Session.wrapArguments] at hleft
      cases ht : s'.signature.params[i]? with
      | some t =>
          rw [ht] at hleft
          have hplace := place_root hm hown (Signature.types_of_params ht)
          rcases Action.leaves_bind hleft with ⟨v', w₁, hdone, hleft⟩ | ⟨e, hfailed⟩
          · exact hrest v' w₁ (hk.leaves_wrap hthere hplace (.inl ⟨v', hdone⟩)) hleft
          · exact (hk.leaves_wrap hthere hplace (.inr ⟨e, hfailed⟩)).1
      | none =>
          rw [ht] at hleft
          exact hrest v w ⟨hk, rfl⟩ hleft

theorem Keeps.use (hm : s.signature.Maintains s.env Place P) (huse : s.Use w w')
    (hk : s.Keeps Place P w) : s.Keeps Place P w' := by
  cases huse with
  | argument s' own index v left => exact hk.argument hm own left
  | result s' own there v left => exact hk.result hm own there left
  | wrap s' own there i vs left => exact hk.wrapArguments hm own there left
  | code event => exact hk.run hm (event.run hk.kept)

theorem Keeps.uses (hm : s.signature.Maintains s.env Place P)
    (huses : Relation.ReflTransGen s.Use w w') (hk : s.Keeps Place P w) :
    s.Keeps Place P w' := by
  induction huses with
  | refl => exact hk
  | tail _ huse ih => exact ih.use hm huse

/-- A session that is new is not referred to yet. -/
theorem keeps_start {signature : Signature} {env : List Ty} {state : SessionState}
    (hclosed : w.Closed) (hb : P state.bindings)
    (hmade : start signature env state w = (s, w')) :
    s.Keeps Place P w' := by
  obtain ⟨rfl, rfl⟩ := Prod.mk.inj hmade
  have hsize : w.sessions.size < (w.sessions.push state).size := by simp
  refine ⟨fun c hc => (hclosed c hc).trans hsize, hsize, fun c hc hstate => ?_, ?_⟩
  · exact absurd hstate (Nat.ne_of_lt (hclosed c hc))
  · simpa [World.newSession, bindings_eq] using hb

/-- What holds of the signature, and goes through checks, holds wherever the session is
used. -/
theorem Used.keeps (hm : s.signature.Maintains s.env Place P) (hused : s.Used w) :
    s.Keeps Place P w := by
  induction hused with
  | start closed learned made => exact keeps_start closed (learned.known hm) made
  | fork _ made ih =>
      have hm' := congrArg (fun p : Session × World => (p.1.signature, p.1.env)) made
      obtain ⟨hsignature, henv⟩ := Prod.mk.inj hm'
      rw [← hsignature, ← henv] at hm
      have hk := ih hm
      exact keeps_start hk.closed hk.known made
  | use _ use ih => exact (ih hm).use hm use

/-- Running code is a use of the session. -/
theorem Used.run (hrun : World.Run (.since (s.state + 1)) w w') (hused : s.Used w) :
    s.Used w' := by
  induction hrun with
  | refl => exact hused
  | tail _ heffect ih => exact ih.use (.code (.halfway heffect))

end Session

end DynamicTypes
