import Mathlib.Logic.Relation
import DynamicTypes.Proofs.PartialApplication

/-!
# What running code does to a world

Code is evaluated by a recursion over expressions and calls, with callbacks that call
each other, failures that are caught, and sessions that several functions share. What
it can do to a world is much less than that. It changes the heap and labels values, it
makes functions, it opens sessions, some of them as the sessions of new functions, and it
checks a value at a position of a session that it has opened, or of a callback that is
there already. `Effect` lists these, and `Later.run` says that evaluating, calling and
checking are sequences of them, whether they end in a result or in a failure.

Checks may also come from outside, from whoever has opened a session and goes on to use
it. `Access` says which sessions may be used in that way: those from a certain number on,
or those that are not the session of any function. What it asks for is that a session
stays open, and that code may use the sessions which it opens itself.

So nothing that is claimed of all runs needs to look at the evaluator again: it is
proved of one effect, and follows for a run by induction.
-/

namespace DynamicTypes

/-! ## Effects and runs -/

namespace World

/-- Whether a session is there, and is one that may be used. -/
structure Open (may : World → Nat → Prop) (w : World) (s : Session) : Prop where
  may_use : may w s.state
  lt_size : s.state < w.sessions.size

/-- The positions where code may check a value or wrap a function: those of the
signature of an open session, and those of what passes through a callback. -/
inductive Position (may : World → Nat → Prop) (w : World) :
    Session → Ty → Locus → Prop where
  | declared {s : Session} {t : Ty} {i : Nat} (opened : Open may w s)
      (declares : s.signature.types[i]? = some t) : Position may w s t (.root i)
  | callback {c : Contract} {t : Ty} {i : Nat} (there : .guarded c ∈ w.code)
      (declares : (c.params ++ [c.result])[i]? = some t) :
      Position may w c.session t (c.locus.child (Ty.paramKey (i + 1)))

/-- The world after a value has been checked, whether it passed or not. -/
def checked (w : World) (s : Session) (t : Ty) (locus : Locus) (v : Value) : World :=
  w.setSession s.state
    ((w.session s.state).record ((s.scope w.heap).satisfy t locus [v] (s.bindings w)))

/-- One thing that running code does to a world. -/
inductive Effect (may : World → Nat → Prop) (w : World) : World → Prop where
  | mutate (heap : Heap) (labels : SortedMap String Value) : Effect may w { w with heap, labels }
  | define (code : Code) (unguarded : ∀ c, code ≠ .guarded c)
      (unkept : ∀ a, code = .applied a → a.state? = none) :
      Effect may w { w with code := w.code.push code }
  | keep (a : Application) (state : SessionState) (own : a.state? = some w.sessions.size) :
      Effect may w
        { w with code := w.code.push (.applied a), sessions := w.sessions.push state }
  | wrap {s : Session} {types : List Ty} {result : Ty} {locus : Locus}
      (place : Position may w s (.function types) locus) (last : types.getLast? = some result)
      (inner : Nat) :
      Effect may w
        { w with code := w.code.push (.guarded ⟨s, locus, types.dropLast, result, inner⟩) }
  | begin (state : SessionState) : Effect may w { w with sessions := w.sessions.push state }
  | check {s : Session} {t : Ty} {locus : Locus} (place : Position may w s t locus) (v : Value) :
      Effect may w (w.checked s t locus v)

section Effects

variable {may : World → Nat → Prop} {w w' : World}

theorem Effect.code (heffect : Effect may w w') {f : Nat} {code : Code}
    (hf : w.code[f]? = some code) : w'.code[f]? = some code := by
  have hlt := (Array.getElem?_eq_some_iff.1 hf).1
  cases heffect with
  | mutate | begin | check => exact hf
  | define | keep | wrap =>
      show (w.code.push _)[f]? = some code
      rw [Array.getElem?_push, if_neg (Nat.ne_of_lt hlt)]
      exact hf

theorem Effect.size_sessions (heffect : Effect may w w') :
    w.sessions.size ≤ w'.sessions.size := by
  cases heffect with
  | mutate | define | wrap => exact Nat.le_refl _
  | begin | keep => simp
  | check => simp [checked, setSession]

/-- A callback that is new has been made for a function type at some position. -/
theorem Effect.guarded (heffect : Effect may w w') {c : Contract}
    (hc : .guarded c ∈ w'.code) :
    .guarded c ∈ w.code ∨
      Position may w c.session (.function (c.params ++ [c.result])) c.locus := by
  cases heffect with
  | mutate | begin | check => exact .inl hc
  | define code unguarded =>
      rcases Array.mem_push.1 hc with hc | hnew
      · exact .inl hc
      · exact (unguarded c hnew.symm).elim
  | keep a state own =>
      rcases Array.mem_push.1 hc with hc | hnew
      · exact .inl hc
      · cases hnew
  | wrap place last inner =>
      rcases Array.mem_push.1 hc with hc | hnew
      · exact .inl hc
      · cases hnew
        rw [List.dropLast_append_getLast? _ last]
        exact .inr place

/-- An application that is new has no session, or one that has been opened for it. -/
theorem Effect.applied (heffect : Effect may w w') {f : Nat} {a : Application}
    (hf : w'.code[f]? = some (.applied a)) :
    w.code[f]? = some (.applied a) ∨ a.state? = none ∨
      a.state? = some w.sessions.size ∧ f = w.code.size ∧
        w'.sessions.size = w.sessions.size + 1 := by
  have hpush : ∀ code, (w.code.push code)[f]? = some (.applied a) →
      w.code[f]? = some (.applied a) ∨ f = w.code.size ∧ code = .applied a := by
    intro code hpush
    rw [Array.getElem?_push] at hpush
    split at hpush
    · next hlast => exact .inr ⟨hlast, Option.some.inj hpush⟩
    · exact .inl hpush
  cases heffect with
  | mutate | begin | check => exact .inl hf
  | define code _ unkept =>
      rcases hpush code hf with hold | ⟨_, hnew⟩
      · exact .inl hold
      · exact .inr (.inl (unkept a hnew))
  | keep b state own =>
      rcases hpush _ hf with hold | ⟨hlast, hnew⟩
      · exact .inl hold
      · cases hnew
        exact .inr (.inr ⟨own, hlast, Array.size_push _⟩)
  | wrap place last inner =>
      rcases hpush _ hf with hold | ⟨_, hnew⟩
      · exact .inl hold
      · cases hnew

/-- The state of a session changes when it is opened, and when a value is checked on
it. -/
theorem Effect.session (heffect : Effect may w w') {i : Nat}
    (hi : i < w.sessions.size) :
    w'.session i = w.session i ∨
      ∃ s t locus v, Position may w s t locus ∧ s.state = i ∧ w' = w.checked s t locus v := by
  have hpush : ∀ state, (w.sessions.push state)[i]? = w.sessions[i]? := by
    intro state
    rw [Array.getElem?_push, if_neg (Nat.ne_of_lt hi)]
  cases heffect with
  | mutate | define | wrap => exact .inl rfl
  | begin state | keep _ state => exact .inl (congrArg (Option.getD · default) (hpush state))
  | @check s t locus place v =>
      by_cases hstate : s.state = i
      · exact .inr ⟨s, t, locus, v, place, hstate, rfl⟩
      · left
        rw [session, session, checked, setSession, Array.getElem?_setIfInBounds_ne hstate]

/-- What a session knows changes when it is opened, and when a value is checked on
it. -/
theorem Effect.bindings (heffect : Effect may w w') (s : Session) :
    s.bindings w' = s.bindings w ∨ (s.bindings w = ∅ ∧ w.sessions.size ≤ s.state) ∨
      ∃ s' t locus v, Position may w s' t locus ∧ s'.state = s.state ∧
        s.bindings w' = ((s'.scope w.heap).satisfy t locus [v] (s.bindings w)).bindings := by
  rcases Nat.lt_or_ge s.state w.sessions.size with hlt | hge
  · rcases heffect.session hlt with hsame | ⟨s', t, locus, v, hplace, hstate, rfl⟩
    · exact .inl (congrArg SessionState.bindings hsame)
    · refine .inr (.inr ⟨s', t, locus, v, hplace, hstate, ?_⟩)
      have hsame : s'.bindings w = s.bindings w := by
        rw [Session.bindings, Session.bindings, hstate]
      rw [checked, hsame, hstate, Session.bindings_record hlt]
  · refine .inr (.inl ⟨?_, hge⟩)
    rw [Session.bindings_eq, Array.getElem?_eq_none hge]
    rfl

end Effects

/-! ## Who may use a session -/

/-- Which sessions may be used from outside, and what has to hold of a world for
that. -/
structure Access where
  may : World → Nat → Prop
  Holds : World → Prop
  holds : ∀ {w w' : World}, Effect may w w' → Holds w → Holds w'
  /-- A session that may be used may be used later. -/
  stays : ∀ {w w' : World} {i : Nat}, Effect may w w' → i < w.sessions.size → may w i → may w' i
  /-- A session that has just been opened may be used. -/
  opens : ∀ {w : World} (state : SessionState), Holds w →
    may { w with sessions := w.sessions.push state } w.sessions.size

/-- The sessions numbered from `n` on, once there are `n`. -/
def Access.since (n : Nat) : Access where
  may _ i := n ≤ i
  Holds w := n ≤ w.sessions.size
  holds heffect hn := Nat.le_trans hn heffect.size_sessions
  stays _ _ hi := hi
  opens _ hn := hn

/-- Whether the sessions of applications are there. -/
def Kept (w : World) : Prop :=
  ∀ (f : Nat) (a : Application), w.code[f]? = some (.applied a) →
    ∀ i ∈ a.state?, i < w.sessions.size

/-- The sessions that are not the session of any application. -/
def Access.unkept : Access where
  may w i := ∀ (f : Nat) (a : Application), w.code[f]? = some (.applied a) → a.state? ≠ some i
  Holds := Kept
  holds heffect hkept f a hf i hi := by
    rcases heffect.applied hf with hold | hnone | ⟨hown, _, hsize⟩
    · exact Nat.lt_of_lt_of_le (hkept f a hold i hi) heffect.size_sessions
    · rw [hnone] at hi
      cases hi
    · cases hown.symm.trans hi
      omega
  stays heffect hlt hmay f a hf := by
    rcases heffect.applied hf with hold | hnone | ⟨hown, _, _⟩
    · exact hmay f a hold
    · simp [hnone]
    · simp only [hown, ne_eq, Option.some.injEq]
      omega
  opens _ hkept f a hf hi := Nat.lt_irrefl _ (hkept f a hf _ hi)

/-- Effects one after the other. -/
def Run (access : Access) : World → World → Prop :=
  Relation.ReflTransGen (Effect access.may)

variable {access : Access} {w w' : World}

theorem Run.refl (w : World) : Run access w w := Relation.ReflTransGen.refl

theorem Run.trans {w'' : World} (hrun : Run access w w') (hrun' : Run access w' w'') :
    Run access w w'' :=
  Relation.ReflTransGen.trans hrun hrun'

theorem Effect.run (heffect : Effect access.may w w') : Run access w w' :=
  Relation.ReflTransGen.single heffect

/-- The code of a function never changes. -/
theorem Run.code (hrun : Run access w w') {f : Nat} {code : Code}
    (hf : w.code[f]? = some code) :
    w'.code[f]? = some code := by
  induction hrun with
  | refl => exact hf
  | tail _ heffect ih => exact heffect.code ih

theorem Run.size_sessions (hrun : Run access w w') :
    w.sessions.size ≤ w'.sessions.size := by
  induction hrun with
  | refl => exact Nat.le_refl _
  | tail _ heffect ih => exact Nat.le_trans ih heffect.size_sessions

theorem Run.holds (hrun : Run access w w') (hw : access.Holds w) : access.Holds w' := by
  induction hrun with
  | refl => exact hw
  | tail _ heffect ih => exact access.holds heffect ih

theorem Open.later {s : Session} (hopen : Open access.may w s)
    (hrun : Run access w w') :
    Open access.may w' s := by
  induction hrun with
  | refl => exact hopen
  | tail _ heffect ih =>
      exact ⟨access.stays heffect ih.lt_size ih.may_use,
        Nat.lt_of_lt_of_le ih.lt_size heffect.size_sessions⟩

theorem Position.later {s : Session} {t : Ty} {locus : Locus}
    (hplace : Position access.may w s t locus) (hrun : Run access w w') :
    Position access.may w' s t locus := by
  cases hplace with
  | declared opened declares => exact .declared (opened.later hrun) declares
  | callback there declares =>
      obtain ⟨f, hf⟩ := Array.getElem?_of_mem there
      exact .callback (Array.mem_of_getElem? (hrun.code hf)) declares

theorem run_newArray (w : World) (items : List Value) :
    Run access w (w.newArray items).2 :=
  (Effect.mutate _ w.labels).run

theorem run_newObject (w : World) (o : Obj) : Run access w (w.newObject o).2 :=
  (Effect.mutate _ w.labels).run

theorem run_label (w : World) (name : String) (v : Value) :
    Run access w (w.label name v) :=
  (Effect.mutate w.heap _).run

theorem run_push (w : World) (target v : Value) : Run access w (w.push target v) := by
  cases target with
  | array a => exact (Effect.mutate _ w.labels).run
  | _ => exact .refl w

theorem run_setField (w : World) (target : Value) (key : String) (v : Value) :
    Run access w (w.setField target key v) := by
  cases target with
  | object o => exact (Effect.mutate _ w.labels).run
  | _ => exact .refl w

theorem run_newFunction (w : World) (info : FunctionInfo) {code : Code}
    (hguarded : ∀ c, code ≠ .guarded c)
    (hunkept : ∀ a, code = .applied a → a.state? = none) :
    Run access w (w.newFunction info code).2 :=
  (Effect.define code hguarded hunkept).run

/-- A new application comes with a session of its own, or without one. -/
theorem run_extend (w : World) {a : Application} {state? : Option SessionState}
    (ha : a.state? = state?.map fun _ => w.sessions.size) :
    Run access w (w.extend [a] state?.toList) := by
  cases state? with
  | none =>
      have hdefine : Effect access.may w _ :=
        .define (.applied a) (fun _ => Code.noConfusion) (fun b hb => by cases hb; exact ha)
      simpa [extend] using hdefine.run
  | some state =>
      have hkeep : Effect access.may w _ := .keep a state ha
      simpa [extend] using hkeep.run

end World

/-! ## Actions that are runs -/

namespace Action

open World (Run)

variable {ε δ α β : Type} {access : World.Access} {w₀ : World}

/-- Whether all that an action does, in worlds that a run from `w₀` leads to, is a
run. -/
def RunsFrom (access : World.Access) (w₀ : World) (m : Action ε α) : Prop :=
  ∀ w w', Run access w₀ w → (m w).Leaves w' → Run access w w'

namespace RunsFrom

theorem later {m : Action ε α} {w₁ : World} (hm : RunsFrom access w₀ m)
    (hrun : Run access w₀ w₁) :
    RunsFrom access w₁ m :=
  fun w w' hw hleft => hm w w' (hrun.trans hw) hleft

theorem pure (a : α) : RunsFrom access w₀ (Pure.pure a : Action ε α) := by
  intro w w' _ hleft
  rw [← Outcome.leaves_done.1 hleft]
  exact .refl w

theorem fail (e : ε) : RunsFrom access w₀ (Action.fail e : Action ε α) := by
  intro w w' _ hleft
  rw [← Outcome.leaves_failed.1 hleft]
  exact .refl w

theorem look (f : World → α) : RunsFrom access w₀ (Action.look f : Action ε α) := by
  intro w w' _ hleft
  rw [← Outcome.leaves_done.1 hleft]
  exact .refl w

theorem change {f : World → World} (hf : ∀ w, Run access w₀ w → Run access w (f w)) :
    RunsFrom access w₀ (Action.change f : Action ε Unit) := by
  intro w w' hw hleft
  rw [← Outcome.leaves_done.1 hleft]
  exact hf w hw

theorem make {f : World → α × World}
    (hf : ∀ w, Run access w₀ w → Run access w (f w).2) :
    RunsFrom access w₀ (Action.make f : Action ε α) := by
  intro w w' hw hleft
  rw [← Outcome.leaves_done.1 hleft]
  exact hf w hw

theorem bind {m : Action ε α} {next : α → Action ε β} (hm : RunsFrom access w₀ m)
    (hnext : ∀ a, RunsFrom access w₀ (next a)) : RunsFrom access w₀ (m >>= next) := by
  intro w w' hw hleft
  rcases leaves_bind hleft with ⟨a, w₁, hdone, hleft⟩ | ⟨e, hfailed⟩
  · have hrun := hm w w₁ hw (.inl ⟨a, hdone⟩)
    exact hrun.trans (hnext a w₁ w' (hw.trans hrun) hleft)
  · exact hm w w' hw (.inr ⟨e, hfailed⟩)

theorem mapError {f : ε → δ} {m : Action ε α} (hm : RunsFrom access w₀ m) :
    RunsFrom access w₀ (m.mapError f) := by
  intro w w' hw hleft
  unfold Action.mapError at hleft
  split at hleft
  · next a w₁ hdone =>
      obtain rfl := Outcome.leaves_done.1 hleft
      exact hm w w₁ hw (.inl ⟨a, hdone⟩)
  · next e w₁ hfailed =>
      obtain rfl := Outcome.leaves_failed.1 hleft
      exact hm w w₁ hw (.inr ⟨e, hfailed⟩)
  · exact (Outcome.not_leaves_exhausted hleft).elim

theorem each {f : α → Action ε β} (hf : ∀ a, RunsFrom access w₀ (f a)) (as : List α) :
    RunsFrom access w₀ (Action.each f as) := by
  induction as with
  | nil => exact .pure []
  | cons a as ih => exact .bind (hf a) fun b => .bind ih fun bs => .pure (b :: bs)

theorem accumulate {f : β → α → Action ε β} (hf : ∀ b a, RunsFrom access w₀ (f b a))
    (b : β) (as : List α) : RunsFrom access w₀ (Action.accumulate f b as) := by
  induction as generalizing b with
  | nil => exact .pure b
  | cons a as ih => exact .bind (hf b a) fun b => ih b

theorem ofExcept (wrong : δ → ε) (x : Except δ α) :
    RunsFrom access w₀ (Action.ofExcept wrong x) := by
  cases x with
  | ok a => exact .pure a
  | error e => exact .fail (wrong e)

theorem labelWith (label : Option String) (v : Value) :
    RunsFrom access w₀ (Action.labelWith label v : Action ε Unit) := by
  cases label with
  | none => exact .pure ()
  | some name => exact .change fun w _ => w.run_label name v

theorem newHostFunction (info : FunctionInfo) (body : Body) :
    RunsFrom access w₀ (.make (·.newFunction info (.host body)) : Action ε Value) :=
  .make fun w _ =>
    w.run_newFunction info (fun _ => Code.noConfusion) (fun _ => Code.noConfusion)

theorem newArray (items : List Value) :
    RunsFrom access w₀ (.make (·.newArray items) : Action ε Value) :=
  .make fun w _ => w.run_newArray items

end RunsFrom

end Action

open World (Run Open Position)

variable {access : World.Access} {w₀ : World}

/-! ## Building -/

theorem Application.runsFrom_declare (name : String) (constraints : Constraints)
    (types env : List Ty) (checked : Bool) (body : Body) :
    (declare name constraints types env checked body).RunsFrom access w₀ := by
  cases hdeclare : Signature.declare name constraints types with
  | error d =>
      rw [declare, hdeclare]
      exact .fail d
  | ok signature =>
      intro w w' _ hleft
      rw [declare_of_ok hdeclare] at hleft
      rw [← Outcome.leaves_done.1 hleft]
      exact w.run_extend rfl

mutual

theorem Literal.runsFrom_build : ∀ l : Literal, l.build.RunsFrom access w₀
  | .value v => by
      rw [Literal.build]
      exact .pure v
  | .array label items => by
      rw [Literal.build]
      exact .bind (.newArray []) fun target =>
        .bind (.labelWith label target) fun _ =>
        .bind (Literal.runsFrom_fillArray target items) fun _ => .pure target
  | .object label tag hook fields => by
      rw [Literal.build]
      exact .bind (.make fun w _ => w.run_newObject _) fun target =>
        .bind (.labelWith label target) fun _ =>
        .bind (Literal.runsFrom_fillObject target fields) fun _ => .pure target
  | .function info body => by
      rw [Literal.build]
      exact .newHostFunction info _
  | .definition name types constraints body env checked => by
      rw [Literal.build]
      exact .bind (TypeExpr.runsFrom_buildAll types) fun types =>
        .bind (TypeExpr.runsFrom_buildAll env) fun env =>
        .mapError (Application.runsFrom_declare name constraints types env checked _)
  | .reference label => by
      intro w w' _ hleft
      rw [Literal.build] at hleft
      cases hfind : w.labels.find? label with
      | none =>
          simp only [hfind] at hleft
          rw [← Outcome.leaves_failed.1 hleft]
          exact .refl w
      | some v =>
          simp only [hfind] at hleft
          rw [← Outcome.leaves_done.1 hleft]
          exact .refl w
  | .labelled label l => by
      rw [Literal.build]
      exact .bind (Literal.runsFrom_build l) fun v => .bind (.labelWith _ v) fun _ => .pure v

theorem Literal.runsFrom_fillArray (target : Value) :
    ∀ items : List Literal, (Literal.fillArray target items).RunsFrom access w₀
  | [] => by
      rw [Literal.fillArray]
      exact .pure ()
  | l :: rest => by
      rw [Literal.fillArray]
      exact .bind (Literal.runsFrom_build l) fun v =>
        .bind (.change fun w _ => w.run_push target v) fun _ =>
        Literal.runsFrom_fillArray target rest

theorem Literal.runsFrom_fillObject (target : Value) :
    ∀ fields : List (String × Literal), (Literal.fillObject target fields).RunsFrom access w₀
  | [] => by
      rw [Literal.fillObject]
      exact .pure ()
  | (key, l) :: rest => by
      rw [Literal.fillObject]
      exact .bind (Literal.runsFrom_build l) fun v =>
        .bind (.change fun w _ => w.run_setField target key v) fun _ =>
        Literal.runsFrom_fillObject target rest

theorem Literal.runsFrom_buildAll : ∀ ls : List Literal, (Literal.buildAll ls).RunsFrom access w₀
  | [] => by
      rw [Literal.buildAll]
      exact .pure []
  | l :: rest => by
      rw [Literal.buildAll]
      exact .bind (Literal.runsFrom_build l) fun v =>
        .bind (Literal.runsFrom_buildAll rest) fun vs => .pure (v :: vs)

theorem TypeExpr.runsFrom_build : ∀ e : TypeExpr, e.build.RunsFrom access w₀
  | .type t => by
      rw [TypeExpr.build]
      exact .pure t
  | .con c supers params => by
      rw [TypeExpr.build]
      exact .bind (TypeExpr.runsFrom_buildAll supers) fun supers =>
        .bind (TypeExpr.runsFrom_buildAll params) fun _ => .pure _
  | .enumeration name url members => by
      rw [TypeExpr.build]
      exact .bind (Literal.runsFrom_buildAll members) fun members =>
        .bind (.look _) fun _ => .ofExcept _ _
  | .record fields => by
      rw [TypeExpr.build]
      exact .bind (TypeExpr.runsFrom_buildFields fields) fun _ => .ofExcept _ _
  | .namedRecord name url supers fields => by
      rw [TypeExpr.build]
      exact .bind (TypeExpr.runsFrom_buildAll supers) fun supers =>
        .bind (TypeExpr.runsFrom_buildFields fields) fun _ => .ofExcept _ _
  | .function types => by
      rw [TypeExpr.build]
      exact .bind (TypeExpr.runsFrom_buildAll types) fun _ => .ofExcept _ _
  | .bareFunction types => by
      rw [TypeExpr.build]
      exact .bind (TypeExpr.runsFrom_buildAll types) fun _ => .pure _
  | .var name params => by
      rw [TypeExpr.build]
      exact .bind (TypeExpr.runsFrom_buildAll params) fun _ => .pure _

theorem TypeExpr.runsFrom_buildAll : ∀ es : List TypeExpr, (TypeExpr.buildAll es).RunsFrom access w₀
  | [] => by
      rw [TypeExpr.buildAll]
      exact .pure []
  | e :: rest => by
      rw [TypeExpr.buildAll]
      exact .bind (TypeExpr.runsFrom_build e) fun t =>
        .bind (TypeExpr.runsFrom_buildAll rest) fun ts => .pure (t :: ts)

theorem TypeExpr.runsFrom_buildFields :
    ∀ fields : List (String × TypeExpr), (TypeExpr.buildFields fields).RunsFrom access w₀
  | [] => by
      rw [TypeExpr.buildFields]
      exact .pure []
  | (key, e) :: rest => by
      rw [TypeExpr.buildFields]
      exact .bind (TypeExpr.runsFrom_build e) fun t =>
        .bind (TypeExpr.runsFrom_buildFields rest) fun ts => .pure ((key, t) :: ts)

end

/-! ## Evaluating

What calls do is a hypothesis here, as the call of a function is a parameter of the
evaluation. -/

section Evaluation

variable {call : Nat → List Value → Action Diagnostic Value}

theorem Value.runsFrom_callWith (hcall : ∀ f args, (call f args).RunsFrom access w₀)
    (f : Value) (args : List Value) : (f.callWith call args).RunsFrom access w₀ := by
  cases f with
  | function i info => exact hcall i args
  | _ => exact .pure _

theorem Action.runsFrom_itemsOf {ε : Type} (v : Value) :
    RunsFrom access w₀ (Action.itemsOf v : Action ε (List Value)) :=
  .look _

mutual

theorem Expr.runsFrom_eval (hcall : ∀ f args, (call f args).RunsFrom access w₀)
    (frames : List (List Value)) : ∀ e : Expr, (e.eval call frames).RunsFrom access w₀
  | .arg index outer => by
      rw [Expr.eval]
      exact .pure _
  | .allArgs => by
      rw [Expr.eval]
      exact .newArray _
  | .literal l => by
      rw [Expr.eval]
      exact .mapError l.runsFrom_build
  | .add a b => by
      rw [Expr.eval]
      exact .bind (Expr.runsFrom_eval hcall frames a) fun _ =>
        .bind (Expr.runsFrom_eval hcall frames b) fun _ => .pure _
  | .call f args => by
      rw [Expr.eval]
      exact .bind (Expr.runsFrom_eval hcall frames f) fun f =>
        .bind (Expr.runsFrom_evalAll hcall frames args) fun args => f.runsFrom_callWith hcall args
  | .map f items => by
      rw [Expr.eval]
      exact .bind (Expr.runsFrom_eval hcall frames f) fun f =>
        .bind (Expr.runsFrom_eval hcall frames items) fun items =>
        .bind (Action.runsFrom_itemsOf items) fun items =>
        .bind (.each (fun v => f.runsFrom_callWith hcall [v]) items) fun results =>
        .newArray results
  | .fold f initial items => by
      rw [Expr.eval]
      exact .bind (Expr.runsFrom_eval hcall frames f) fun f =>
        .bind (Expr.runsFrom_eval hcall frames initial) fun initial =>
        .bind (Expr.runsFrom_eval hcall frames items) fun items =>
        .bind (Action.runsFrom_itemsOf items) fun items =>
        .accumulate (fun acc v => f.runsFrom_callWith hcall [acc, v]) initial items
  | .array items => by
      rw [Expr.eval]
      exact .bind (Expr.runsFrom_evalAll hcall frames items) fun items => .newArray items
  | .object fields => by
      rw [Expr.eval]
      exact .bind (Expr.runsFrom_evalFields hcall frames fields) fun fields =>
        .make fun w _ => w.run_newObject _
  | .print e => by
      rw [Expr.eval]
      exact .bind (Expr.runsFrom_eval hcall frames e) fun _ => .look _
  | .concat a b => by
      rw [Expr.eval]
      exact .bind (Expr.runsFrom_eval hcall frames a) fun a =>
        .bind (Expr.runsFrom_eval hcall frames b) fun b =>
        .bind (Action.runsFrom_itemsOf a) fun first =>
        .bind (Action.runsFrom_itemsOf b) fun second => .newArray (first ++ second)
  | .length items => by
      rw [Expr.eval]
      exact .bind (Expr.runsFrom_eval hcall frames items) fun items =>
        .bind (Action.runsFrom_itemsOf items) fun _ => .pure _
  | .field e key => by
      rw [Expr.eval]
      exact .bind (Expr.runsFrom_eval hcall frames e) fun _ => .look _
  | .item e index => by
      rw [Expr.eval]
      exact .bind (Expr.runsFrom_eval hcall frames e) fun v =>
        .bind (Action.runsFrom_itemsOf v) fun _ => .pure _
  | .push items e => by
      rw [Expr.eval]
      exact .bind (Expr.runsFrom_eval hcall frames items) fun target =>
        .bind (Expr.runsFrom_eval hcall frames e) fun v =>
        .bind (.change fun w _ => w.run_push target v) fun _ => .pure target
  | .sequence es => by
      rw [Expr.eval]
      exact .bind (Expr.runsFrom_evalAll hcall frames es) fun _ => .pure _
  | .ite test e yes no => by
      rw [Expr.eval]
      refine .bind (Expr.runsFrom_eval hcall frames e) fun v => .bind (.look _) fun holds => ?_
      split
      · exact Expr.runsFrom_eval hcall frames yes
      · exact Expr.runsFrom_eval hcall frames no
  | .function name arity body => by
      rw [Expr.eval]
      exact .newHostFunction _ _
  | .raise category message => by
      rw [Expr.eval]
      exact .fail _
  | .attempt e => by
      -- a failure is caught, and what was done before it stays done
      have he := Expr.runsFrom_eval hcall frames e
      intro w w' hw hleft
      rw [Expr.eval] at hleft
      beta_reduce at hleft
      split at hleft
      · next v w₁ hdone =>
          obtain rfl := Outcome.leaves_done.1 hleft
          exact he w w₁ hw (.inl ⟨v, hdone⟩)
      · next d w₁ hfailed =>
          obtain rfl := Outcome.leaves_done.1 hleft
          exact he w w₁ hw (.inr ⟨d, hfailed⟩)
      · exact (Outcome.not_leaves_exhausted hleft).elim

theorem Expr.runsFrom_evalAll (hcall : ∀ f args, (call f args).RunsFrom access w₀)
    (frames : List (List Value)) :
    ∀ es : List Expr, (Expr.evalAll call frames es).RunsFrom access w₀
  | [] => by
      rw [Expr.evalAll]
      exact .pure []
  | e :: rest => by
      rw [Expr.evalAll]
      exact .bind (Expr.runsFrom_eval hcall frames e) fun v =>
        .bind (Expr.runsFrom_evalAll hcall frames rest) fun vs => .pure (v :: vs)

theorem Expr.runsFrom_evalFields (hcall : ∀ f args, (call f args).RunsFrom access w₀)
    (frames : List (List Value)) :
    ∀ fields : List (String × Expr), (Expr.evalFields call frames fields).RunsFrom access w₀
  | [] => by
      rw [Expr.evalFields]
      exact .pure []
  | (key, e) :: rest => by
      rw [Expr.evalFields]
      exact .bind (Expr.runsFrom_eval hcall frames e) fun v =>
        .bind (Expr.runsFrom_evalFields hcall frames rest) fun vs => .pure ((key, v) :: vs)

end

end Evaluation

/-! ## Checking and wrapping -/

namespace Session

variable {s : Session}

theorem runsFrom_check {t : Ty} {locus : Locus}
    (hplace : Position access.may w₀ s t locus) (v : Value) :
    (s.check t locus v).RunsFrom access w₀ := by
  intro w w' hw hleft
  obtain rfl := leaves_conclude.1 hleft
  exact (World.Effect.check (hplace.later hw) v).run

theorem runsFrom_wrap {ε : Type} {t : Ty} {locus : Locus}
    (hplace : Position access.may w₀ s t locus) (v : Value) :
    Action.RunsFrom access w₀ (s.wrap t locus v : Action ε Value) := by
  unfold wrap
  split
  · split
    · exact .pure _
    · next hlast => exact .make fun w hw => (World.Effect.wrap (hplace.later hw) hlast _).run
  · exact .pure _

theorem runsFrom_checkResult (hopen : Open access.may w₀ s) (v : Value) :
    (s.checkResult v).RunsFrom access w₀ := by
  have hplace : Position access.may w₀ s s.signature.result (.root s.signature.arity) :=
    .declared hopen (by simp [Signature.types, Signature.arity])
  exact .bind (runsFrom_check hplace v) fun _ => runsFrom_wrap hplace v

theorem declared_of_params (hopen : Open access.may w₀ s) {i : Nat} {t : Ty}
    (ht : s.signature.params[i]? = some t) : Position access.may w₀ s t (.root i) := by
  refine .declared hopen ?_
  rw [Signature.types, List.getElem?_append_left (List.getElem?_eq_some_iff.1 ht).1]
  exact ht

theorem runsFrom_checkArgument (hopen : Open access.may w₀ s) (index : Nat)
    (v : Value) :
    (s.checkArgument index v).RunsFrom access w₀ := by
  intro w w' hw hleft
  have hw' := leaves_conclude.1 hleft
  simp only [Signature.argumentVerdict] at hw'
  split at hw'
  · rw [bindings, setSession_record] at hw'
    rw [← hw']
    exact .refl w
  · next t ht =>
      rw [← hw']
      exact (World.Effect.check (declared_of_params (hopen.later hw) ht) v).run

theorem runsFrom_wrapArguments {ε : Type} (hopen : Open access.may w₀ s) (i : Nat)
    (vs : List Value) :
    Action.RunsFrom access w₀ (s.wrapArguments i vs : Action ε (List Value)) := by
  induction vs generalizing i with
  | nil => exact .pure []
  | cons v rest ih =>
      rw [wrapArguments]
      have hrest : ∀ v, Action.RunsFrom access w₀
          (do let rest ← s.wrapArguments (i + 1) rest; pure (v :: rest) : Action ε (List Value)) :=
        fun v => .bind (ih (i + 1)) fun rest => .pure (v :: rest)
      split
      · next t ht => exact .bind (runsFrom_wrap (declared_of_params hopen ht) v) hrest
      · exact .bind (.pure v) hrest

end Session

/-! ## Calling -/

theorem Contract.runsFrom_accept {c : Contract} (k : Nat) (ts : List Ty) (vs : List Value)
    (hplaces : ∀ i t, ts[i]? = some t →
      Position access.may w₀ c.session t (c.locus.child (Ty.paramKey (i + k)))) :
    (c.accept k ts vs).RunsFrom access w₀ := by
  induction ts generalizing k vs with
  | nil => exact .pure []
  | cons t ts ih =>
      cases vs with
      | nil => exact .pure []
      | cons v vs =>
          have hplace := hplaces 0 t rfl
          rw [Nat.zero_add] at hplace
          refine .bind (Session.runsFrom_check hplace v) fun _ =>
            .bind (Session.runsFrom_wrap hplace v) fun v =>
            .bind (ih (k + 1) vs fun i t ht => ?_) fun vs => .pure (v :: vs)
          have hrest := hplaces (i + 1) t ht
          rwa [Nat.add_right_comm] at hrest

theorem Contract.runsFrom_call {call : Nat → List Value → Action Diagnostic Value}
    (hcall : ∀ f args, (call f args).RunsFrom access w₀) {c : Contract}
    (hc : .guarded c ∈ w₀.code) (args : List Value) :
    (c.call call args).RunsFrom access w₀ := by
  by_cases harity : args.length = c.params.length
  · have hbody : c.call call args = _ := if_pos harity
    rw [hbody]
    have hresult : Position access.may w₀ c.session c.result
        (c.locus.child (Ty.paramKey (c.params.length + 1))) := .callback hc (by simp)
    refine .bind (runsFrom_accept 1 c.params args fun i t ht => ?_) fun args =>
      .bind (hcall c.inner args) fun result =>
      .bind (Session.runsFrom_check hresult result) fun _ => Session.runsFrom_wrap hresult result
    refine .callback hc ?_
    rw [List.getElem?_append_left (List.getElem?_eq_some_iff.1 ht).1]
    exact ht
  · have hbody : c.call call args = _ := if_neg harity
    rw [hbody]
    intro w w' _ hleft
    obtain rfl := Outcome.leaves_failed.1 hleft
    exact .refl w

section Applying

variable {run : Body → List Value → Action Diagnostic Value}

theorem Application.runsFrom_invoke
    (hrun : ∀ body args, (run body args).RunsFrom access w₀) {a : Application}
    (hopen : ∀ i, a.state? = some i → Open access.may w₀ ⟨a.signature, a.env, i⟩) :
    (a.invoke run).RunsFrom access w₀ := by
  rw [invoke, session?]
  cases ha : a.state? with
  | none => exact hrun _ _
  | some i =>
      exact .bind (Session.runsFrom_wrapArguments (hopen i ha) 0 a.arguments) fun args =>
        .bind (hrun a.body args) fun result => Session.runsFrom_checkResult (hopen i ha) result

theorem Application.runsFrom_apply
    (hrun : ∀ body args, (run body args).RunsFrom access w₀) (hholds : access.Holds w₀)
    (a : Application) (args : List Value) :
    (a.apply run args).RunsFrom access w₀ := by
  intro w w' hw hleft
  by_cases hargs : InArity a.openSlots args
  · cases hlearn : a.learn w.heap (a.placed args) (a.known w) with
    | error d =>
        rw [apply_of_refuses hargs hlearn] at hleft
        rw [← Outcome.leaves_failed.1 hleft]
        exact .refl w
    | ok next =>
        by_cases hfull : left a.openSlots args = []
        · rw [apply_of_full hargs hlearn run hfull] at hleft
          -- the session of the run is a new one, so it may be used
          obtain ⟨hbegin, hopen⟩ : Run access w (w.extend [] next.toList) ∧
              ∀ i, next.map (fun _ => w.sessions.size) = some i →
                Open access.may (w.extend [] next.toList) ⟨a.signature, a.env, i⟩ := by
            cases next with
            | none => exact ⟨by simpa using Run.refl w, nofun⟩
            | some state =>
                have hextend : w.extend [] [state] =
                    { w with sessions := w.sessions.push state } := by simp [World.extend]
                rw [Option.toList_some, hextend]
                refine ⟨(World.Effect.begin state).run, ?_⟩
                rintro i ⟨⟩
                exact ⟨access.opens state (hw.holds hholds), by simp⟩
          have hinvoke := runsFrom_invoke
            (fun body args => (hrun body args).later (hw.trans hbegin))
            (a := a.advance (a.placed args) (next.map fun _ => w.sessions.size)) hopen
          exact hbegin.trans (hinvoke _ w' (.refl _) hleft)
        · rw [apply_of_open hargs hlearn run hfull] at hleft
          rw [← Outcome.leaves_done.1 hleft]
          exact w.run_extend rfl
  · rw [apply_of_miscounted hargs] at hleft
    rw [← Outcome.leaves_failed.1 hleft]
    exact .refl w

end Applying

theorem runsFrom_callFunction (depth : Nat) :
    ∀ {w₀ : World}, access.Holds w₀ → ∀ f args, (callFunction depth f args).RunsFrom access w₀ := by
  induction depth with
  | zero =>
      intro w₀ _ f args w w' _ hleft
      exact (Outcome.not_leaves_exhausted hleft).elim
  | succ depth ih =>
      intro w₀ hholds f args w w' hw hleft
      have hholds' := hw.holds hholds
      have hcall := ih hholds'
      have heval : ∀ (body : Body) args, (body.run (callFunction depth) args).RunsFrom access w :=
        fun body args => body.expr.runsFrom_eval hcall (args :: body.frames)
      rw [callFunction] at hleft
      beta_reduce at hleft
      split at hleft
      · obtain rfl := Outcome.leaves_done.1 hleft
        exact .refl w
      · next code hcode =>
          -- from here on, runs start in the world of the call, where the code is known
          cases code with
          | host body => exact heval body args w w' (.refl w) hleft
          | applied a => exact a.runsFrom_apply heval hholds' args w w' (.refl w) hleft
          | guarded c =>
              have hc : .guarded c ∈ w.code := Array.mem_of_getElem? hcode
              exact Contract.runsFrom_call hcall hc args w w' (.refl w) hleft

/-! ## What a program does -/

namespace World

/-- What is done with a world, one thing at a time: an expression is evaluated or a
value is called, with any bound on the depth of calls, or an open session checks an
argument or a result. Each may end in a result or in a failure, and may be looked at
when it is half done, after any of its effects. -/
inductive Event (access : Access) (w w' : World) : Prop where
  | evaluate (depth : Nat) (frames : List (List Value)) (e : Expr)
      (left : (e.eval (callFunction depth) frames w).Leaves w')
  | call (depth : Nat) (f : Value) (args : List Value) (left : (call depth f args w).Leaves w')
  | argument (s : Session) (opened : Open access.may w s) (index : Nat) (v : Value)
      (left : (s.checkArgument index v w).Leaves w')
  | result (s : Session) (opened : Open access.may w s) (v : Value)
      (left : (s.checkResult v w).Leaves w')
  | halfway (effect : Effect access.may w w')

/-- The worlds that events lead to. -/
def Later (access : Access) : World → World → Prop :=
  Relation.ReflTransGen (Event access)

variable {access : Access} {w w' : World}

theorem Event.run (hholds : access.Holds w) (hevent : Event access w w') :
    Run access w w' := by
  have hcall := fun depth => runsFrom_callFunction depth hholds
  cases hevent with
  | evaluate depth frames e left => exact e.runsFrom_eval (hcall depth) frames w w' (.refl w) left
  | call depth f args left => exact f.runsFrom_callWith (hcall depth) args w w' (.refl w) left
  | argument s opened index v left =>
      exact s.runsFrom_checkArgument opened index v w w' (.refl w) left
  | result s opened v left => exact s.runsFrom_checkResult opened v w w' (.refl w) left
  | halfway effect => exact effect.run

/-- Whatever is done is a run. -/
theorem Later.run (hholds : access.Holds w) (hlater : Later access w w') :
    Run access w w' := by
  induction hlater with
  | refl => exact .refl w
  | tail _ hevent ih => exact ih.trans (hevent.run (ih.holds hholds))

end World

end DynamicTypes
