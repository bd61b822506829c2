import DynamicTypes.Proofs.ConcreteChecks
import DynamicTypes.Proofs.Loci

/-!
# Callbacks keep their contracts

A function that is passed where a function type is declared arrives as a callback. Every
call through it is checked, and if functions are declared in its type then those that go
in and those that come out are callbacks in turn, to any depth.

`Enforces` says what one call through a callback does, and says it without the function
behind it: the call either fails before that function is reached, and then fails in the
same way whatever the function is, or it reaches the function with arguments that belong
to their types. That all callbacks of a call do this, however they came about, is
`callbacks_enforced`. It needs to know of each callback only that its types stand inside
the type declared at its position, and `Keeps` provides that.
-/

namespace DynamicTypes

/-! ## Types inside a type without variables -/

namespace Ty

theorem occurrences_child {t u : Ty} {key : String} (hu : (key, u) ∈ t.children)
    {p : String × List Ty} (hp : p ∈ u.occurrences) : p ∈ t.occurrences := by
  have hkeyed : ∀ {ts : List Ty}, (key, u) ∈ keyed 1 ts → p ∈ occurrencesAll ts := by
    intro ts hmem
    obtain ⟨i, hi, _⟩ := mem_keyed.1 hmem
    exact mem_occurrencesAll.2 ⟨u, List.mem_of_getElem? hi, hp⟩
  cases t with
  | con c supers params =>
      rw [occurrences]
      exact hkeyed hu
  | record r supers fields =>
      rw [occurrences]
      exact mem_occurrencesFields.2 ⟨_, hu, hp⟩
  | function types =>
      rw [occurrences]
      exact hkeyed hu
  | var name params =>
      rw [occurrences]
      exact List.mem_cons_of_mem _ (hkeyed hu)
  | _ => cases hu

theorem Inside.occurrences {t u : Ty} (hu : Inside t u) {p : String × List Ty}
    (hp : p ∈ u.occurrences) : p ∈ t.occurrences := by
  induction hu with
  | self => exact hp
  | child _ mem ih => exact ih (occurrences_child mem hp)

/-- A type without variables has none that a check could bind. -/
theorem vars_of_occurrences {t : Ty} (ht : t.occurrences = []) : t.vars = [] := by
  induction t with
  | con c supers params _ ih =>
      rw [vars, varsAll_eq_nil]
      refine fun p hp => ih p hp (List.eq_nil_iff_forall_not_mem.2 fun q hq => ?_)
      rw [occurrences] at ht
      exact List.eq_nil_iff_forall_not_mem.1 ht q (mem_occurrencesAll.2 ⟨p, hp, hq⟩)
  | record r supers fields _ ih =>
      rw [vars, varsFields_eq_nil]
      refine fun f hf => ih f hf (List.eq_nil_iff_forall_not_mem.2 fun q hq => ?_)
      rw [occurrences] at ht
      exact List.eq_nil_iff_forall_not_mem.1 ht q (mem_occurrencesFields.2 ⟨f, hf, hq⟩)
  | var name params => simp [occurrences] at ht
  | _ => rfl

end Ty

/-! ## One call through a callback -/

/-- The first of the values that does not belong to the type at its index. -/
structure FirstBad (types : List Ty) (h : Heap) (vs : List Value) (i : Nat) (t : Ty)
    (v : Value) :
    Prop where
  declared : types[i]? = some t
  given : vs[i]? = some v
  bad : t.isMember h v = false
  before : ∀ (j : Nat) (u : Ty) (x : Value), j < i → types[j]? = some u → vs[j]? = some x →
    u.isMember h x = true

theorem FirstBad.cons {types : List Ty} {h : Heap} {vs : List Value} {i : Nat}
    {t u : Ty} {v x : Value} (hv : t.isMember h v = true)
    (hbad : FirstBad types h vs i u x) :
    FirstBad (t :: types) h (v :: vs) (i + 1) u x := by
  refine ⟨hbad.declared, hbad.given, hbad.bad, fun j s y hj hs hy => ?_⟩
  cases j with
  | zero =>
      cases hs
      cases hy
      exact hv
  | succ j => exact hbad.before j s y (Nat.lt_of_succ_lt_succ hj) hs hy

namespace Contract

/-- The position of a slot of a callback, counted from zero with the result last. -/
def slot (c : Contract) (i : Nat) : Locus := c.locus.child (Ty.paramKey (i + 1))

/-- Whether an outcome is what becomes of the call of the function behind a callback:
its failure is passed on, and its result is handed back if it belongs to its type and
rejected if it does not. -/
structure PassesOn (c : Contract) (inner o : Outcome Diagnostic Value) : Prop where
  failed : ∀ d w, inner = .failed d w → o = .failed d w
  exhausted : inner = .exhausted → o = .exhausted
  done : ∀ r w, inner = .done r w →
    (c.result.isMember w.heap r = true ∧ ∃ r' w', o = .done r' w' ∧ w.Grows w' ∧
      c.session.Hands w' c.result (c.slot c.params.length) r r') ∨
    (c.result.isMember w.heap r = false ∧ ∃ d w', o = .failed d w' ∧
      d.Rejects w.heap c.session.env c.result r (c.slot c.params.length))

/-- What a call through a callback does: with the wrong number of arguments it fails at
the position of the callback, with an argument that does not belong to its type it fails
at the slot of the first such argument, in both cases whatever the function behind it
is; and otherwise it calls that function on what is handed over for the arguments. -/
inductive Enforces (c : Contract) (w : World) (args : List Value) : Prop where
  | count (wrong : args.length ≠ c.params.length) {d : Diagnostic}
      (category : d.category = .arityViolation) (positions : d.positions = [c.locus])
      (fails : ∀ call, c.call call args w = .failed d w)
  | argument (count : args.length = c.params.length) {i : Nat} {t : Ty} {v : Value}
      (first : FirstBad c.params w.heap args i t v) {d : Diagnostic}
      (rejects : d.Rejects w.heap c.session.env t v (c.slot i)) {w' : World} (grows : w.Grows w')
      (fails : ∀ call, c.call call args w = .failed d w')
  | passes (count : args.length = c.params.length)
      (members : ∀ (i : Nat) (t : Ty) (v : Value), c.params[i]? = some t → args[i]? = some v →
        t.isMember w.heap v = true)
      {args' : List Value} {w₁ : World} (grows : w.Grows w₁)
      (hands : c.session.HandsAll w₁ c.params c.slot args args')
      (calls : ∀ call, c.PassesOn (call c.inner args' w₁) (c.call call args w))

theorem accept_concrete {c : Contract} (k : Nat) {ts : List Ty} {vs : List Value}
    (hlength : vs.length = ts.length) (hvars : ∀ t ∈ ts, t.vars = []) (w : World) :
    (∃ i t v d w', FirstBad ts w.heap vs i t v ∧ w.Grows w' ∧
      d.Rejects w.heap c.session.env t v (c.locus.child (Ty.paramKey (k + i))) ∧
      c.accept k ts vs w = .failed d w') ∨
    ((∀ (i : Nat) (t : Ty) (v : Value), ts[i]? = some t → vs[i]? = some v →
        t.isMember w.heap v = true) ∧
      ∃ vs' w', w.Grows w' ∧
        c.session.HandsAll w' ts (fun i => c.locus.child (Ty.paramKey (k + i))) vs vs' ∧
        c.accept k ts vs w = .done vs' w') := by
  induction ts generalizing k vs w with
  | nil =>
      obtain rfl := List.length_eq_zero_iff.1 hlength
      refine .inr ⟨by simp, [], w, .refl w, Session.handsAll_nil _ _, ?_⟩
      rw [accept]
      · rfl
      · intros
        contradiction
  | cons t ts ih =>
      obtain ⟨v, vs, rfl⟩ := List.exists_cons_of_length_eq_add_one hlength
      rw [List.forall_mem_cons] at hvars
      rw [accept]
      rcases c.session.check_concrete hvars.1 (c.locus.child (Ty.paramKey k)) v w with
        ⟨hv, sessions, hcheck⟩ | ⟨hv, d, sessions, hcheck, hd⟩
      · rw [Action.bind_of_done hcheck]
        obtain ⟨v', w₁, hwrap, hgrows₁, hhands⟩ := c.session.wrap_hands (ε := Diagnostic) t
          (c.locus.child (Ty.paramKey k)) v { w with sessions }
        rw [Action.bind_of_done hwrap]
        have hgrows : w.Grows w₁ := (w.grows_sessions sessions).trans hgrows₁
        have hplace : ∀ i, k + 1 + i = k + (i + 1) := fun i => by omega
        have hrest := ih (k + 1) (Nat.succ.inj hlength) hvars.2 w₁
        simp only [hgrows.heap, hplace] at hrest
        rcases hrest with
          ⟨i, u, x, d, w', hbad, hgrows', hd, hfailed⟩ | ⟨hmembers, vs', w', hgrows', hrest, hdone⟩
        · exact .inl ⟨i + 1, u, x, d, w', hbad.cons hv, hgrows.trans hgrows', hd,
            Action.bind_of_failed hfailed⟩
        · refine .inr ⟨fun i u x hu hx => ?_, v' :: vs', w', hgrows.trans hgrows',
            .cons (hhands.later hgrows') hrest, (Action.bind_of_done hdone).trans rfl⟩
          cases i with
          | zero =>
              cases hu
              cases hx
              exact hv
          | succ i => exact hmembers i u x hu hx
      · refine .inl ⟨0, t, v, d, { w with sessions }, ⟨rfl, rfl, hv, ?_⟩, w.grows_sessions _, hd,
          Action.bind_of_failed hcheck⟩
        exact fun j _ _ hj => absurd hj (Nat.not_lt_zero j)

/-- A callback whose types have no variables keeps its contract. -/
theorem enforces (c : Contract) (hvars : ∀ t ∈ c.params ++ [c.result], t.vars = [])
    (args : List Value) (w : World) : c.Enforces w args := by
  by_cases hcount : args.length = c.params.length
  · have hcall : ∀ call, c.call call args = _ := fun call => if_pos hcount
    have hparams : ∀ t ∈ c.params, t.vars = [] := fun t ht => hvars t (List.mem_append_left _ ht)
    have hresult : c.result.vars = [] := hvars _ (by simp)
    have haccept := accept_concrete (c := c) 1 hcount hparams w
    simp only [Nat.add_comm 1] at haccept
    rcases haccept with
      ⟨i, t, v, d, w', hbad, hgrows, hd, hfailed⟩ | ⟨hmembers, args', w₁, hgrows, hhands, hdone⟩
    · refine .argument hcount hbad hd hgrows fun call => ?_
      rw [hcall]
      exact Action.bind_of_failed hfailed
    · refine .passes hcount hmembers hgrows hhands fun call => ?_
      rw [hcall, Action.bind_of_done hdone]
      refine ⟨fun d w hinner => Action.bind_of_failed hinner,
        fun hinner => Action.bind_of_exhausted hinner, fun r w₂ hinner => ?_⟩
      rw [Action.bind_of_done hinner]
      exact c.session.handsBack hresult (c.slot c.params.length) r w₂
  · exact .count hcount rfl rfl fun call => congrFun (if_neg hcount) w

end Contract

/-! ## Every callback of a call -/

/-- Whether the signature has a type at a position, and the type stands inside the one
that it declares there. -/
def Signature.Has (s : Signature) (t : Ty) (locus : Locus) : Prop :=
  s.typeAt? locus = some t ∧ ∃ root, s.types[locus.index]? = some root ∧ root.Inside t

theorem Signature.maintains_has (s : Signature) (env : List Ty) :
    s.Maintains env s.Has fun _ => True where
  root ht := ⟨ht, _, ht, .self⟩
  slot := by
    rintro types locus i t ⟨htype, root, hroot, hinside⟩ ht
    refine ⟨typeAt?_slot htype ht, root, hroot, hinside.child (Ty.mem_keyed.2 ⟨i, ht, rfl⟩)⟩
  nothing := trivial
  check _ _ _ _ := trivial

theorem call_guarded {c : Contract} {w : World} {f : Nat}
    (hcode : w.code[f]? = some (.guarded c)) (depth : Nat) (info : FunctionInfo)
    (args : List Value) :
    World.call (depth + 1) (.function f info) args w = c.call (callFunction depth) args w := by
  change callFunction (depth + 1) f args w = _
  unfold callFunction
  simp only [hcode]
  rfl

namespace Application

/-- A checked function is called with the last of its arguments, and they pass. Its
signature has a function type without variables at one of its positions. However the
body is run, a function that is passed there arrives in front of it as a callback; and
whatever is done from then on, every callback at that position, be it this one or one
that a call through another has made, stands for the type that the signature has at its
place, and keeps its contract with every call. -/
theorem callbacks_enforced {a : Application} (hchecked : a.state?.isSome = true)
    {w : World} (hclosed : w.Closed) {args : List Value} {next : Application}
    {w₀ : World} (hfill : a.fill args w = .done next w₀)
    (hfull : next.isComplete = true) {i : Nat} {params : List Ty} {result : Ty}
    (hdeclares : a.signature.types[i]? = some (.function (params ++ [result])))
    (hvars : (Ty.function (params ++ [result])).occurrences = []) :
    ∃ (s : Session) (args' : List Value) (w₁ : World),
      s.signature = a.signature ∧ s.env = a.env ∧
      (∀ run, a.apply run args w = (run a.body args' >>= s.checkResult) w₁) ∧
      (∀ g seen, i < a.signature.arity → next.arguments[i]? = some (.function g seen) → ∃ f info,
        args'[i]? = some (.function f info) ∧
        w₁.code[f]? = some (.guarded ⟨s, .root i, params, result, g⟩)) ∧
      ∀ w₂, Relation.ReflTransGen s.Use w₁ w₂ → ∀ f c, w₂.code[f]? = some (.guarded c) →
        c.session.state = s.state → c.locus.index = i →
        c.session = s ∧ s.signature.typeAt? c.locus = some (.function (c.params ++ [c.result])) ∧
        (∀ depth info args, World.call (depth + 1) (.function f info) args w₂ =
          c.call (callFunction depth) args w₂) ∧
        ∀ args, c.Enforces w₂ args := by
  have happly : ∀ run, a.apply run args w = next.invoke run w₀ := fun run =>
    (Action.bind_of_done hfill).trans (congrFun (if_pos hfull) w₀)
  obtain ⟨state, rfl, rfl⟩ := exists_of_fill hchecked hfill
  let s : Session := ⟨a.signature, a.env, w.sessions.size⟩
  have hstart : Session.start a.signature a.env state w = (s, w.extend [] [state]) := by
    simp [Session.start, World.newSession, World.extend, s]
  have hm := a.signature.maintains_has a.env
  obtain ⟨args', w₁, _, _, hwrap, hhands, hinvoke⟩ :=
    invoke_hands (a := a.advance (a.placed args) (some w.sessions.size)) rfl (w.extend [] [state])
  have hk₀ : s.Keeps s.signature.Has (fun _ => True) (w.extend [] [state]) :=
    Session.keeps_start hclosed trivial hstart
  have hk₁ : s.Keeps s.signature.Has (fun _ => True) w₁ :=
    hk₀.wrapArguments hm (fun _ => rfl) hk₀.kept (.inl ⟨args', hwrap⟩)
  refine ⟨s, args', w₁, rfl, rfl, fun run => (happly run).trans (hinvoke run),
    fun g seen hi hg => ?_, fun w₂ huses f c hf hstate hi => ?_⟩
  · have hparam : a.signature.params[i]? = some (.function (params ++ [result])) := by
      rw [← hdeclares, Signature.types, List.getElem?_append_left hi]
    obtain ⟨v', hv', hhands⟩ := hhands.2 i _ _ hparam hg
    cases hhands with
    | value plain => exact absurd (plain _ _ _ rfl rfl) (by simp)
    | callback declared there =>
        obtain ⟨rfl, hlast⟩ := List.append_inj' (Ty.function.inj declared) rfl
        cases hlast
        exact ⟨_, _, hv', there⟩
  · have hk₂ := hk₁.uses hm huses
    obtain ⟨hown, htype, root, hroot, hinside⟩ := hk₂.contracts c (Array.mem_of_getElem? hf) hstate
    rw [hi] at hroot
    cases hdeclares.symm.trans hroot
    have hfree : ∀ t ∈ c.params ++ [c.result], t.vars = [] := by
      intro t ht
      obtain ⟨j, hj⟩ := List.mem_iff_getElem?.1 ht
      have ht' := hinside.child (Ty.mem_keyed.2 ⟨j, hj, rfl⟩)
      refine Ty.vars_of_occurrences (List.eq_nil_iff_forall_not_mem.2 fun p hp => ?_)
      exact List.eq_nil_iff_forall_not_mem.1 hvars p (ht'.occurrences hp)
    exact ⟨hown, htype, call_guarded hf, fun args => c.enforces hfree args w₂⟩

/-- A function whose parameter is a function that takes one itself. -/
def twice : Application where
  signature := ⟨"twice", ∅,
    [.function [.function [Builtin.boolean, Builtin.boolean], Builtin.boolean]], .any, by decide⟩
  env := []
  body := ⟨.arg 0 0, []⟩
  slots := [none]
  state? := some 0

theorem callbacks_enforced_twice :
    ∃ (w w₀ w₁ : World) (g : Value) (next : Application) (s : Session) (f : Nat) (c : Contract),
      w.Closed ∧ twice.fill [g] w = .done next w₀ ∧ next.isComplete = true ∧
      (Ty.function ([.function [Builtin.boolean, Builtin.boolean]] ++
        [Builtin.boolean])).occurrences = [] ∧
      w₁.code[f]? = some (.guarded c) ∧ c.inner = 0 ∧ c.session = s ∧
      s.signature.typeAt? c.locus = some (.function (c.params ++ [c.result])) ∧
      ∀ args, c.Enforces w₁ args := by
  let w : World := ⟨.empty, #[.host ⟨.arg 0 0, []⟩, .applied twice], #[default], ∅⟩
  let g : Value := .function 0 ⟨"g", 1, none⟩
  have hclosed : w.Closed := fun c hc => by simp [w] at hc
  have hfill : twice.fill [g] w =
      .done (twice.advance [(g, 0)] (some 1)) (w.extend [] [default]) := rfl
  have hvars : (Ty.function ([.function [Builtin.boolean, Builtin.boolean]] ++
      [Builtin.boolean])).occurrences = [] := rfl
  obtain ⟨s, args, w₁, _, _, _, hpassed, hkept⟩ :=
    callbacks_enforced rfl hclosed hfill rfl (i := 0) rfl hvars
  obtain ⟨f, info, _, hf⟩ := hpassed 0 _ (by decide) rfl
  obtain ⟨hown, htype, _, henforces⟩ := hkept w₁ .refl f _ hf rfl rfl
  exact ⟨w, _, w₁, g, _, s, f, _, hclosed, hfill, rfl, hvars, hf, rfl, hown, htype, henforces⟩

end Application

end DynamicTypes
