import DynamicTypes.Host.Evaluation
import DynamicTypes.Proofs.Checks
import DynamicTypes.Proofs.Independence
import DynamicTypes.Proofs.Slots

/-!
# How a function takes its arguments

The checks of a call are one pass over the arguments in their slots, `Signature.checkAll`,
which starts from what the session of the function knows. The pass takes place on a fork. A
call that is refused drops the fork and leaves the world as it was; a call that leaves slots
open keeps it as the session of a new function; a call that fills the last slot runs the
body on it. `Takes` says this of one call, and `callAll_eq_finish` of a chain of calls: since
a new function starts from what the one before it knew, a chain is one pass over all
arguments.
-/

namespace DynamicTypes

/-! ## Checking the arguments of a call -/

/-- The state of a session after it has checked arguments for the parameters that they
are paired with, one after the other, or the diagnostic of the first that fails. -/
def Signature.checkAll (s : Signature) (h : Heap) (env : List Ty) :
    List (Value × Nat) → SessionState → Except Diagnostic SessionState
  | [], state => .ok state
  | (v, i) :: ps, state =>
    match (s.argumentVerdict h env i v state.bindings).failure? with
    | some f => .error (f.diagnostic h s env)
    | none => s.checkAll h env ps (state.record (s.argumentVerdict h env i v state.bindings))

namespace Application

/-- Whether an argument passes its check, and what the check leaves. -/
def Passes (h : Heap) (signature : Signature) (env : List Ty) (p : Value × Nat)
    (b b' : Bindings) :
    Prop :=
  (signature.argumentVerdict h env p.2 p.1 b).Succeeds b'

/-- Whether the diagnostic is that of the first argument that fails its check, made with
what the arguments before it have told. -/
def RefusedAtFirst (h : Heap) (signature : Signature) (env : List Ty) (b : Bindings)
    (ps : List (Value × Nat)) (d : Diagnostic) : Prop :=
  ∃ front v i back b' fail, ps = front ++ (v, i) :: back ∧
    Runs (Passes h signature env) front b b' ∧
    (signature.argumentVerdict h env i v b').failure? = some fail ∧
    d = fail.diagnostic h signature env

section CheckAll

variable {h : Heap} {signature : Signature} {env : List Ty} {ps qs : List (Value × Nat)}
  {state state' : SessionState} {d : Diagnostic}

theorem passes_unique (p : Value × Nat) (b b₁ b₂ : Bindings)
    (h₁ : Passes h signature env p b b₁) (h₂ : Passes h signature env p b b₂) :
    b₁ = b₂ :=
  h₁.2.symm.trans h₂.2

theorem checkAll_append : signature.checkAll h env (ps ++ qs) state =
    (signature.checkAll h env ps state).bind (signature.checkAll h env qs) := by
  induction ps generalizing state with
  | nil => rfl
  | cons p ps ih =>
      rw [List.cons_append, Signature.checkAll, Signature.checkAll]
      split
      · rfl
      · exact ih

/-- Checks that all pass, one after the other. -/
theorem runs_of_checkAll (hok : signature.checkAll h env ps state = .ok state') :
    Runs (Passes h signature env) ps state.bindings state'.bindings := by
  induction ps generalizing state with
  | nil =>
      cases hok
      rfl
  | cons p ps ih =>
      rw [Signature.checkAll] at hok
      split at hok
      · cases hok
      · next hnone => exact ⟨_, ⟨hnone, rfl⟩, ih hok⟩

theorem refusedAtFirst_of_checkAll
    (herror : signature.checkAll h env ps state = .error d) :
    RefusedAtFirst h signature env state.bindings ps d := by
  induction ps generalizing state with
  | nil => cases herror
  | cons p ps ih =>
      obtain ⟨v, i⟩ := p
      rw [Signature.checkAll] at herror
      split at herror
      · next f hsome =>
          cases herror
          exact ⟨[], v, i, ps, _, f, rfl, rfl, hsome, rfl⟩
      · next hnone =>
          obtain ⟨front, v', i', back, b', fail, rfl, hruns, hfails, hd⟩ := ih herror
          exact ⟨(v, i) :: front, v', i', back, b', fail, rfl, ⟨_, ⟨hnone, rfl⟩, hruns⟩, hfails, hd⟩

/-- If an argument is refused, then not all of them pass. -/
theorem RefusedAtFirst.not_runs {b : Bindings}
    (hrefused : RefusedAtFirst h signature env b ps d) (b' : Bindings) :
    ¬ Runs (Passes h signature env) ps b b' := by
  obtain ⟨front, v, i, back, b₁, fail, rfl, hruns, hfails, _⟩ := hrefused
  intro hall
  obtain ⟨b₁', hruns', b₂, hpasses, _⟩ := runs_append.1 hall
  cases hruns.unique passes_unique hruns'
  cases hfails.symm.trans hpasses.1

end CheckAll

/-- What the session of an application knows. -/
def known (a : Application) (w : World) : Option SessionState := a.state?.map w.session

/-- What is known after more arguments have been checked, or the diagnostic of the first
that fails. Without a session nothing is checked. -/
def learn (a : Application) (h : Heap) (ps : List (Value × Nat)) :
    Option SessionState → Except Diagnostic (Option SessionState)
  | none => .ok none
  | some state => (a.signature.checkAll h a.env ps state).map some

theorem learn_append (a : Application) (h : Heap) (ps qs : List (Value × Nat))
    (known : Option SessionState) :
    a.learn h (ps ++ qs) known = (a.learn h ps known).bind (a.learn h qs) := by
  cases known with
  | none => rfl
  | some state =>
      rw [learn, learn, checkAll_append]
      cases a.signature.checkAll h a.env ps state <;> rfl

theorem isSome_of_learn {a : Application} {h : Heap} {ps : List (Value × Nat)}
    {known next : Option SessionState} (hlearn : a.learn h ps known = .ok next) :
    next.isSome = known.isSome := by
  cases known with
  | none =>
      cases hlearn
      rfl
  | some state =>
      rw [learn] at hlearn
      cases hcheck : a.signature.checkAll h a.env ps state with
      | error d => rw [hcheck] at hlearn; cases hlearn
      | ok state' => rw [hcheck] at hlearn; cases hlearn; rfl

end Application

/-! ## One call -/

/-- The world with applications added as functions, and states as sessions. -/
def World.extend (w : World) (made : List Application) (states : List SessionState) :
    World :=
  { w with
    code := w.code ++ (made.map Code.applied).toArray
    sessions := w.sessions ++ states.toArray }

namespace World

variable {w : World} {made made' : List Application} {states states' : List SessionState}

@[simp] theorem heap_extend : (w.extend made states).heap = w.heap := rfl

@[simp] theorem labels_extend : (w.extend made states).labels = w.labels := rfl

@[simp] theorem size_sessions_extend :
    (w.extend made states).sessions.size = w.sessions.size + states.length := by
  simp [extend]

@[simp] theorem size_code_extend :
    (w.extend made states).code.size = w.code.size + made.length := by
  simp [extend]

@[simp] theorem extend_nil : w.extend [] [] = w := by
  simp [extend]

theorem extend_extend :
    (w.extend made states).extend made' states' = w.extend (made ++ made') (states ++ states') := by
  simp [extend]

theorem code_extend {f : Nat} {code : Code} (hf : w.code[f]? = some code) :
    (w.extend made states).code[f]? = some code := by
  have hlt := (Array.getElem?_eq_some_iff.1 hf).1
  rw [extend, Array.getElem?_append_left hlt, hf]

theorem session_extend {i : Nat} (hi : i < w.sessions.size) :
    (w.extend made states).session i = w.session i := by
  rw [session, session, extend, Array.getElem?_append_left hi]

theorem session_extend_size (state : SessionState) :
    (w.extend made [state]).session w.sessions.size = state := by
  simp [session, extend]

end World

namespace Application

theorem known_extend {a : Application} {w : World}
    (ha : ∀ i ∈ a.state?, i < w.sessions.size) (made : List Application)
    (states : List SessionState) :
    a.known (w.extend made states) = a.known w := by
  unfold known
  cases hstate : a.state? with
  | none => rfl
  | some i => exact congrArg some (World.session_extend (ha i hstate))

section Latest

/-! While the arguments of a call are checked, its session is the latest one. -/

variable {a : Application} {w : World} (ha : a.state? = some w.sessions.size)

theorem setSession_latest (w : World) (state state' : SessionState) :
    (w.extend [] [state]).setSession w.sessions.size state' = w.extend [] [state'] := by
  simp [World.setSession, World.extend, Array.setIfInBounds_def, Array.set_push]

theorem bindings_latest (a : Application) (w : World) (state : SessionState) :
    Session.bindings ⟨a.signature, a.env, w.sessions.size⟩ (w.extend [] [state]) = state.bindings :=
  congrArg SessionState.bindings (World.session_extend_size state)

include ha

theorem checkArgument_latest (i : Nat) (v : Value) :
    a.checkArgument i v = Session.checkArgument ⟨a.signature, a.env, w.sessions.size⟩ i v := by
  rw [checkArgument, session?, ha]
  rfl

theorem supply_of_none {i : Nat} {v : Value} {state : SessionState}
    (hnone : (a.signature.argumentVerdict w.heap a.env i v state.bindings).failure? = none) :
    a.supply i v (w.extend [] [state]) = .done (a.advance [(v, i)] a.state?)
      (w.extend [] [state.record
        (a.signature.argumentVerdict w.heap a.env i v state.bindings)]) := by
  rw [← bindings_latest a w state] at hnone
  have hdone := Session.checkArgument_of_passes (s := ⟨a.signature, a.env, w.sessions.size⟩)
    (w := w.extend [] [state]) i v (Option.isNone_iff_eq_none.2 hnone)
  rw [bindings_latest, World.session_extend_size, setSession_latest] at hdone
  rw [supply, checkArgument_latest ha, Action.bind_of_done hdone]
  rfl

theorem supply_of_some {i : Nat} {v : Value} {state : SessionState} {f : Failure}
    (hsome : (a.signature.argumentVerdict w.heap a.env i v state.bindings).failure? = some f) :
    a.supply i v (w.extend [] [state]) = .failed (f.diagnostic w.heap a.signature a.env)
      (w.extend [] [state.record
        (a.signature.argumentVerdict w.heap a.env i v state.bindings)]) := by
  rw [← bindings_latest a w state] at hsome
  have hfailed := Session.checkArgument_of_failure (s := ⟨a.signature, a.env, w.sessions.size⟩)
    (w := w.extend [] [state]) hsome
  rw [bindings_latest, World.session_extend_size, setSession_latest] at hfailed
  rw [supply, checkArgument_latest ha, Action.bind_of_failed hfailed]
  rfl

/-- Arguments fill their slots if all of them pass. -/
theorem supplyAll_latest (ps : List (Value × Nat)) (state : SessionState) :
    (∃ state', a.signature.checkAll w.heap a.env (ps.filter fun p => !p.1.isPlaceholder) state =
        .ok state' ∧
      a.supplyAll ps (w.extend [] [state]) =
        .done (a.advance (ps.filter fun p => !p.1.isPlaceholder) a.state?)
          (w.extend [] [state'])) ∨
    ∃ d state', a.signature.checkAll w.heap a.env (ps.filter fun p => !p.1.isPlaceholder) state =
        .error d ∧
      a.supplyAll ps (w.extend [] [state]) = .failed d (w.extend [] [state']) := by
  induction ps generalizing a state with
  | nil => exact .inl ⟨state, rfl, rfl⟩
  | cons p ps ih =>
      obtain ⟨v, i⟩ := p
      rw [supplyAll, List.filter_cons]
      cases v.isPlaceholder with
      | true => exact ih ha state
      | false =>
          simp only [Bool.not_false, if_true, Bool.false_eq_true, if_false, Signature.checkAll]
          cases hf : (a.signature.argumentVerdict w.heap a.env i v state.bindings).failure? with
          | some f => exact .inr ⟨_, _, rfl, Action.bind_of_failed (supply_of_some ha hf)⟩
          | none =>
              rw [Action.bind_of_done (supply_of_none ha hf)]
              rcases ih (a := a.advance [(v, i)] a.state?) ha _ with
                ⟨state', hcheck, hall⟩ | ⟨d, state', hcheck, hall⟩
              · exact .inl ⟨state', hcheck, hall.trans (by rw [advance_advance]; rfl)⟩
              · exact .inr ⟨d, state', hcheck, hall⟩

end Latest

/-- What comes of giving arguments to an application, if this much is known from those
before. -/
inductive Takes (a : Application) (known : Option SessionState) (args : List Value)
    (w : World) :
    Outcome Diagnostic Application → Prop where
  | miscounted (outside : ¬ InArity a.openSlots args) :
      Takes a known args w (.failed
        ((Failure.argumentCount a.openSlots.length args).diagnostic w.heap a.signature a.env) w)
  | refused {d : Diagnostic} (inArity : InArity a.openSlots args)
      (refuses : a.learn w.heap (a.placed args) known = .error d) :
      Takes a known args w (.failed d w)
  | filled {next : Option SessionState} (inArity : InArity a.openSlots args)
      (learns : a.learn w.heap (a.placed args) known = .ok next) :
      Takes a known args w (.done
        (a.advance (a.placed args) (next.map fun _ => w.sessions.size))
        (w.extend [] next.toList))

theorem inArity_iff {slots : List Nat} {args : List Value} : InArity slots args ↔
    ¬ (decide (slots.length < args.length) || args.isEmpty && !slots.isEmpty) = true := by
  rw [Bool.not_eq_true, Bool.or_eq_false_iff, decide_eq_false_iff_not, Nat.not_lt, InArity,
    Bool.and_eq_false_imp, List.isEmpty_iff, Bool.not_eq_false', List.isEmpty_iff]

theorem fill_of_inArity {a : Application} {args : List Value}
    (hargs : InArity a.openSlots args) :
    a.fill args = ((Action.make a.fork : Action Diagnostic Application) >>= fun next =>
      (next.supplyAll (args.zip a.openSlots)).onFailure next.drop) :=
  if_neg (inArity_iff.1 hargs)

theorem supplyAll_unchecked {a : Application} (ha : a.state? = none)
    (ps : List (Value × Nat)) (w : World) :
    a.supplyAll ps w = .done (a.advance (ps.filter fun p => !p.1.isPlaceholder) none) w := by
  induction ps generalizing a with
  | nil =>
      rw [← ha]
      rfl
  | cons p ps ih =>
      obtain ⟨v, i⟩ := p
      rw [supplyAll, List.filter_cons]
      cases v.isPlaceholder with
      | true => exact ih ha
      | false =>
          have hsupply : a.supply i v w = .done (a.advance [(v, i)] none) w := by
            rw [supply, checkArgument, session?, ha]
            exact congrArg (Outcome.done · w) (by rw [advance, ← ha]; rfl)
          simp only [Bool.not_false, if_true, Bool.false_eq_true, if_false]
          rw [Action.bind_of_done hsupply, ih rfl, advance_advance]
          rfl

theorem fork_of_some {a : Application} {i : Nat} (ha : a.state? = some i) (w : World) :
    a.fork w = ({ a with state? := some w.sessions.size }, w.extend [] [w.session i]) := by
  rw [fork, session?, ha]
  simp [Session.fork, Session.start, World.newSession, World.extend]

theorem drop_latest {a : Application} {i : Nat} (ha : a.state? = some i) (w : World)
    (state : SessionState) : a.drop (w.extend [] [state]) = w := by
  rw [drop, ha]
  simp [World.dropSession, World.extend]

/-- A call takes its arguments starting from what the session of the function knows. -/
theorem fill_takes (a : Application) (args : List Value) (w : World) :
    a.Takes (a.known w) args w (a.fill args w) := by
  by_cases hargs : InArity a.openSlots args
  · rw [fill_of_inArity hargs]
    cases ha : a.state? with
    | none =>
        have hfork : (Action.make a.fork : Action Diagnostic Application) w = .done a w := by
          rw [Action.make, fork, session?, ha]
          rfl
        rw [Action.bind_of_done hfork, Action.onFailure, supplyAll_unchecked ha]
        have hlearn : a.learn w.heap (a.placed args) (a.known w) = .ok none := by
          rw [known, ha]
          rfl
        have hfilled := Takes.filled hargs hlearn
        rw [Option.map_none, Option.toList_none, World.extend_nil] at hfilled
        exact hfilled
    | some i =>
        have hfork : (Action.make a.fork : Action Diagnostic Application) w =
            .done { a with state? := some w.sessions.size } (w.extend [] [w.session i]) := by
          rw [Action.make, fork_of_some ha]
        have hknown : a.known w = some (w.session i) := by
          rw [known, ha]
          rfl
        rw [Action.bind_of_done hfork, Action.onFailure, hknown]
        rcases supplyAll_latest (a := { a with state? := some w.sessions.size }) rfl
          (args.zip a.openSlots) (w.session i) with ⟨state, hcheck, hall⟩ | ⟨d, state, hcheck, hall⟩
        · have hlearns : a.learn w.heap (a.placed args) (some (w.session i)) = .ok (some state) :=
            congrArg (Except.map some) hcheck
          rw [hall]
          exact .filled hargs hlearns
        · rw [hall]
          simp only
          rw [drop_latest rfl]
          exact .refused hargs (congrArg (Except.map some) hcheck)
  · have hcount : a.fill args w = _ := congrFun (if_pos (not_not.1 (mt inArity_iff.2 hargs))) w
    rw [hcount]
    exact .miscounted hargs

section Calls

variable {a : Application} {args : List Value} {w : World} {next : Option SessionState}
  {d : Diagnostic} (hargs : InArity a.openSlots args)

include hargs

theorem fill_of_refuses
    (hrefuses : a.learn w.heap (a.placed args) (a.known w) = .error d) :
    a.fill args w = .failed d w := by
  have htakes := a.fill_takes args w
  generalize a.fill args w = o at htakes
  cases htakes with
  | miscounted outside => exact absurd hargs outside
  | refused _ refuses =>
      cases refuses.symm.trans hrefuses
      rfl
  | filled _ learns => cases learns.symm.trans hrefuses

variable (hlearns : a.learn w.heap (a.placed args) (a.known w) = .ok next)

include hlearns

theorem fill_of_learns : a.fill args w = .done
    (a.advance (a.placed args) (next.map fun _ => w.sessions.size)) (w.extend [] next.toList) := by
  have htakes := a.fill_takes args w
  generalize a.fill args w = o at htakes
  cases htakes with
  | miscounted outside => exact absurd hargs outside
  | refused _ refuses => cases refuses.symm.trans hlearns
  | filled _ learns =>
      cases learns.symm.trans hlearns
      rfl

/-- A call that fills the last slot runs the body. -/
theorem apply_of_full (run : Body → List Value → Action Diagnostic Value)
    (hfull : left a.openSlots args = []) :
    a.apply run args w = (a.advance (a.placed args) (next.map fun _ => w.sessions.size)).invoke run
      (w.extend [] next.toList) := by
  rw [apply, Action.bind_of_done (fill_of_learns hargs hlearns)]
  refine congrFun (if_pos ?_) _
  rw [isComplete_iff, openSlots_advance, hfull]

/-- A call that leaves slots open makes a function of them. -/
theorem apply_of_open (run : Body → List Value → Action Diagnostic Value)
    (hopen : left a.openSlots args ≠ []) :
    a.apply run args w = .done
      (.function w.code.size
        ⟨a.signature.name, (left a.openSlots args).length, some a.signature.format⟩)
      (w.extend [a.advance (a.placed args) (next.map fun _ => w.sessions.size)] next.toList) := by
  rw [apply, Action.bind_of_done (fill_of_learns hargs hlearns)]
  refine (congrFun (if_neg ?_) _).trans ?_
  · rw [isComplete_iff, openSlots_advance]
    exact hopen
  · rw [toFunction, Action.make, openSlots_advance]
    simp [World.newFunction, World.extend, advance]

end Calls

/-- Arguments that a checked function takes have passed on a session of their own. -/
theorem exists_of_fill {a next : Application} (hchecked : a.state?.isSome = true)
    {args : List Value} {w w' : World} (hfill : a.fill args w = .done next w') :
    ∃ state, next = a.advance (a.placed args) (some w.sessions.size) ∧
      w' = w.extend [] [state] := by
  have htakes := a.fill_takes args w
  rw [hfill] at htakes
  cases htakes with
  | @filled learned inArity learns =>
      have hsome : learned.isSome = true := by
        rw [isSome_of_learn learns, known, Option.isSome_map, hchecked]
      obtain ⟨state, rfl⟩ := Option.isSome_iff_exists.1 hsome
      exact ⟨state, rfl, rfl⟩

theorem apply_of_miscounted {a : Application} {args : List Value} {w : World}
    (hargs : ¬ InArity a.openSlots args)
    (run : Body → List Value → Action Diagnostic Value) :
    a.apply run args w = .failed
      ((Failure.argumentCount a.openSlots.length args).diagnostic w.heap a.signature a.env) w := by
  have htakes := a.fill_takes args w
  cases hfill : a.fill args w with
  | done next w' =>
      rw [hfill] at htakes
      cases htakes with
      | filled inArity _ => exact absurd inArity hargs
  | failed d w' =>
      refine (Action.bind_of_failed hfill).trans ?_
      rw [hfill] at htakes
      cases htakes with
      | miscounted _ => rfl
      | refused inArity _ => exact absurd inArity hargs
  | exhausted =>
      rw [hfill] at htakes
      cases htakes

theorem apply_of_refuses {a : Application} {args : List Value} {w : World}
    {d : Diagnostic} (hargs : InArity a.openSlots args)
    (hrefuses : a.learn w.heap (a.placed args) (a.known w) = .error d)
    (run : Body → List Value → Action Diagnostic Value) :
    a.apply run args w = .failed d w :=
  Action.bind_of_failed (fill_of_refuses hargs hrefuses)

/-- The application that a call makes knows what its arguments have told. -/
theorem known_advance (a : Application) (ps : List (Value × Nat))
    (next : Option SessionState) (made : List Application) (w : World) :
    (a.advance ps (next.map fun _ => w.sessions.size)).known (w.extend made next.toList) =
      next := by
  cases next with
  | none => rfl
  | some state => exact congrArg some (World.session_extend_size state)

/-- Whether an application is one of this definition that has taken no argument yet. -/
structure Unapplied (signature : Signature) (env : List Ty) (checked : Bool)
    (body : Body) (w : World) (a : Application) : Prop where
  signature_eq : a.signature = signature
  env_eq : a.env = env
  body_eq : a.body = body
  slots_eq : a.slots = List.replicate signature.arity none
  checked_eq : a.state?.isSome = checked
  kept : ∀ i ∈ a.state?, i < w.sessions.size
  nothing : ∀ i ∈ a.state?, (w.session i).bindings = ∅

theorem Unapplied.openSlots {signature : Signature} {env : List Ty} {checked : Bool}
    {body : Body} {w : World} {a : Application}
    (ha : Unapplied signature env checked body w a) :
    a.openSlots = List.range signature.arity :=
  openSlots_of_replicate ha.slots_eq

theorem call_applied {a : Application} {w : World} {f : Nat}
    (hcode : w.code[f]? = some (.applied a)) (depth : Nat) (info : FunctionInfo)
    (args : List Value) :
    World.call (depth + 1) (.function f info) args w =
      a.apply (Body.run (callFunction depth)) args w := by
  change callFunction (depth + 1) f args w = _
  unfold callFunction
  simp only [hcode]
  rfl

end Application

/-- Whether a function is one of this definition that has taken no argument yet. -/
def World.Defines (w : World) (f : Nat) (signature : Signature) (env : List Ty)
    (checked : Bool) (body : Body) : Prop :=
  ∃ a, w.code[f]? = some (.applied a) ∧ a.Unapplied signature env checked body w

/-- What the session of a function knows when it is declared, if it has one. -/
def Application.initial? (checked : Bool) : Option SessionState :=
  if checked then some default else none

/-- A declaration adds a function with all slots open, and with a session of its own if
arguments are to be checked. -/
theorem Application.declare_of_ok {name : String} {constraints : Constraints}
    {types : List Ty} {signature : Signature}
    (hdeclare : Signature.declare name constraints types = .ok signature)
    (env : List Ty) (checked : Bool) (body : Body) (w : World) :
    declare name constraints types env checked body w = .done
      (.function w.code.size ⟨signature.name, signature.arity, some signature.format⟩)
      (w.extend [⟨signature, env, body, List.replicate signature.arity none,
        (initial? checked).map fun _ => w.sessions.size⟩] (initial? checked).toList) := by
  let a : Application := ⟨signature, env, body, List.replicate signature.arity none,
    (initial? checked).map fun _ => w.sessions.size⟩
  have hmake : (Action.make (define signature env checked body) : Action Diagnostic Application) w =
      .done a (w.extend [] (initial? checked).toList) := by
    cases checked with
    | false => simp [Action.make, define, initial?, a]
    | true => simp [Action.make, define, initial?, Session.start, World.newSession, World.extend, a]
  have hopen : a.openSlots = List.range signature.arity := openSlots_of_replicate rfl
  rw [declare, hdeclare]
  refine (Action.bind_of_done hmake).trans ?_
  rw [toFunction, Action.make, hopen]
  simp [World.newFunction, World.extend, a]

/-- The function that a declaration adds has taken no argument. -/
theorem World.defines_of_declare {name : String} {constraints : Constraints} {types : List Ty}
    {signature : Signature} (hdeclare : Signature.declare name constraints types = .ok signature)
    {env : List Ty} {checked : Bool} {body : Body} {w w' : World} {f : Nat} {info : FunctionInfo}
    (hdone : Application.declare name constraints types env checked body w =
      .done (.function f info) w') :
    w'.Defines f signature env checked body := by
  cases (Application.declare_of_ok hdeclare env checked body w).symm.trans hdone
  refine ⟨⟨signature, env, body, List.replicate signature.arity none,
    (Application.initial? checked).map fun _ => w.sessions.size⟩, by simp [World.extend],
    rfl, rfl, rfl, rfl, ?_, ?_, ?_⟩
  · cases checked <;> rfl
  · intro i hi
    obtain ⟨state, hstate, rfl⟩ := Option.mem_map.1 hi
    simp [Option.mem_def.1 hstate]
  · intro i hi
    obtain ⟨state, hstate, rfl⟩ := Option.mem_map.1 hi
    rw [Option.mem_def.1 hstate, Option.toList_some, World.session_extend_size]
    cases checked with
    | false => cases hstate
    | true =>
        cases hstate
        rfl

/-! ## Chains of calls -/

namespace World

/-- Calls a function with one group of arguments, what it returns with the next, and so
on. -/
def callAll (depth : Nat) : List (List Value) → Value → Action Diagnostic Value
  | [], f => pure f
  | args :: groups, f => do
    let f ← World.call depth f args
    World.callAll depth groups f

theorem callAll_singleton (depth : Nat) (args : List Value) (f : Value) (w : World) :
    World.callAll depth [args] f w = World.call depth f args w := by
  cases hcall : World.call depth f args w with
  | done v w' => exact Action.bind_of_done hcall
  | failed d w' => exact Action.bind_of_failed hcall
  | exhausted => exact Action.bind_of_exhausted hcall

end World

namespace Application

/-- Runs the body once the arguments for all slots have been checked, or reports the one
that has failed. -/
def finish (a : Application) (ps : List (Value × Nat))
    (learned : Except Diagnostic (Option SessionState))
    (run : Body → List Value → Action Diagnostic Value) :
    Action Diagnostic Value := fun w =>
  match learned with
  | .error d => .failed d w
  | .ok next =>
    (a.advance ps (next.map fun _ => w.sessions.size)).invoke run (w.extend [] next.toList)

theorem finish_advance (a : Application) (ps qs : List (Value × Nat))
    (state? : Option Nat) (learned : Except Diagnostic (Option SessionState))
    (run : Body → List Value → Action Diagnostic Value) :
    (a.advance ps state?).finish qs learned run = a.finish (ps ++ qs) learned run := by
  funext w
  cases learned with
  | error d => rfl
  | ok next => rw [finish, finish, advance_advance]

/-- A chain of calls that fills all slots is one pass over all arguments. On the way it
makes no more than a function and a session with each call but the last, and no session
if nothing is checked. -/
theorem callAll_eq_finish {a : Application} {w : World} {f : Nat}
    (hcode : w.code[f]? = some (.applied a)) {groups : List (List Value)}
    (hfills : FillsAll a.openSlots groups) (depth : Nat) (info : FunctionInfo) :
    ∃ (made : List Application) (states : List SessionState),
      made.length < groups.length ∧ states.length < groups.length ∧
      (a.state? = none → states = []) ∧
      (∀ next, a.learn w.heap (arrived a.openSlots groups) (a.known w) = .ok next →
        made.length + 1 = groups.length) ∧
      World.callAll (depth + 1) groups (.function f info) w =
        a.finish (arrived a.openSlots groups)
          (a.learn w.heap (arrived a.openSlots groups) (a.known w))
          (Body.run (callFunction depth)) (w.extend made states) := by
  generalize hslots : a.openSlots = slots at hfills
  induction hfills generalizing a w f info with
  | @last slots args inArity full =>
      subst hslots
      refine ⟨[], [], by simp, by simp, fun _ => rfl, fun _ _ => rfl, ?_⟩
      rw [World.callAll_singleton, call_applied hcode, arrived, arrived, List.append_nil,
        World.extend_nil]
      cases hlearn : a.learn w.heap (taken a.openSlots args) (a.known w) with
      | error d => exact apply_of_refuses inArity hlearn _
      | ok next => exact apply_of_full inArity hlearn _ full
  | @more slots args groups inArity open_ _ ih =>
      subst hslots
      have hcall := call_applied hcode depth info args
      rw [arrived, learn_append]
      cases hlearn : a.learn w.heap (taken a.openSlots args) (a.known w) with
      | error d =>
          rw [apply_of_refuses inArity hlearn] at hcall
          refine ⟨[], [], by simp, by simp, fun _ => rfl, fun next hok => ?_, ?_⟩
          · cases hok
          · rw [World.extend_nil]
            exact Action.bind_of_failed hcall
      | ok next =>
          rw [apply_of_open inArity hlearn _ open_] at hcall
          let b := a.advance (a.placed args) (next.map fun _ => w.sessions.size)
          let w₁ := w.extend [b] next.toList
          have hb : b.openSlots = left a.openSlots args := openSlots_advance a args _
          have hcode₁ : w₁.code[w.code.size]? = some (.applied b) := by simp [w₁, World.extend]
          obtain ⟨made, states, hmade, hstates, hnone, hok, hrest⟩ := ih hcode₁ _ hb
          have hstate : next.toList.length ≤ 1 := by cases next <;> simp
          refine ⟨b :: made, next.toList ++ states, by simpa using hmade, ?_, fun ha => ?_,
            fun next' hnext' => ?_, ?_⟩
          · rw [List.length_append, List.length_cons]
            omega
          · obtain rfl : next = none := by
              rw [← Option.not_isSome_iff_eq_none, isSome_of_learn hlearn, known, ha]
              simp
            exact hnone rfl
          · rw [List.length_cons, List.length_cons, hok next' (by rw [known_advance]; exact hnext')]
          · refine (Action.bind_of_done hcall).trans (hrest.trans ?_)
            rw [known_advance, finish_advance, World.extend_extend]
            rfl

end Application

end DynamicTypes
