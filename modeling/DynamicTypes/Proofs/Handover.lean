import DynamicTypes.Proofs.PartialApplication

/-!
# Handing values over

A value that crosses from the caller of a function to its body, or back, is checked and
then handed over: as it is, or behind a callback if it is a function that was declared as
one. `Hands` says what is handed over for one value, and `RunsWith` what it means that the
body of a checked function is run: once, on what is handed over for its arguments.
-/

namespace DynamicTypes

/-! ## Worlds that have grown -/

/-- Whether a world has what another one has, and perhaps more functions and other
sessions. -/
structure World.Grows (w w' : World) : Prop where
  heap : w'.heap = w.heap
  labels : w'.labels = w.labels
  code : ∀ {f : Nat} {code : Code}, w.code[f]? = some code → w'.code[f]? = some code

theorem World.Grows.refl (w : World) : w.Grows w := ⟨rfl, rfl, id⟩

theorem World.Grows.trans {w w' w'' : World} (hgrows : w.Grows w')
    (hgrows' : w'.Grows w'') :
    w.Grows w'' :=
  ⟨hgrows'.heap.trans hgrows.heap, hgrows'.labels.trans hgrows.labels,
    fun hcode => hgrows'.code (hgrows.code hcode)⟩

theorem World.grows_sessions (w : World) (sessions : Array SessionState) :
    w.Grows { w with sessions } :=
  ⟨rfl, rfl, id⟩

theorem World.grows_push (w : World) (code : Code) :
    w.Grows { w with code := w.code.push code } := by
  refine ⟨rfl, rfl, fun {f code'} hf => ?_⟩
  rw [Array.getElem?_push, if_neg (Nat.ne_of_lt (Array.getElem?_eq_some_iff.1 hf).1)]
  exact hf

theorem World.grows_extend (w : World) (made : List Application)
    (states : List SessionState) :
    w.Grows (w.extend made states) :=
  ⟨rfl, rfl, World.code_extend⟩

/-- A function keeps its definition while the sessions stay as they are. -/
theorem World.Defines.of_grows {w w' : World} {f : Nat} {signature : Signature}
    {env : List Ty} {checked : Bool} {body : Body}
    (hdefines : w.Defines f signature env checked body) (hgrows : w.Grows w')
    (hsessions : w'.sessions = w.sessions) :
    w'.Defines f signature env checked body := by
  obtain ⟨a, hcode, ha⟩ := hdefines
  refine ⟨a, hgrows.code hcode, { ha with kept := ?_, nothing := ?_ }⟩
  · exact fun i hi => hsessions ▸ ha.kept i hi
  · intro i hi
    rw [World.session, hsessions]
    exact ha.nothing i hi

/-! ## What is handed over -/

namespace Session

/-- What is handed over for a value of a declared type: a callback at the position, with
the function behind it, if a function type is declared and the value is a function;
otherwise the value itself. -/
inductive Hands (s : Session) (w : World) (t : Ty) (locus : Locus) :
    Value → Value → Prop where
  | value {v : Value}
      (plain : ∀ types inner seen, t = .function types → v = .function inner seen → types = []) :
      Hands s w t locus v v
  | callback {params : List Ty} {result : Ty} {inner f : Nat} {seen info : FunctionInfo}
      (declared : t = .function (params ++ [result]))
      (there : w.code[f]? = some (.guarded ⟨s, locus, params, result, inner⟩)) :
      Hands s w t locus (.function inner seen) (.function f info)

/-- Whether the values are handed over for the others, each as the type at its index
says, at the position that goes with the index. -/
def HandsAll (s : Session) (w : World) (types : List Ty) (place : Nat → Locus)
    (vs vs' : List Value) : Prop :=
  vs'.length = vs.length ∧ ∀ i t v, types[i]? = some t → vs[i]? = some v →
    ∃ v', vs'[i]? = some v' ∧ s.Hands w t (place i) v v'

variable {s : Session} {w w' : World} {t : Ty} {locus : Locus} {v v' : Value}

theorem Hands.later (hhands : s.Hands w t locus v v') (hgrows : w.Grows w') :
    s.Hands w' t locus v v' := by
  cases hhands with
  | value plain => exact .value plain
  | callback declared there => exact .callback declared (hgrows.code there)

theorem handsAll_nil (place : Nat → Locus) (types : List Ty) :
    s.HandsAll w types place [] [] :=
  ⟨rfl, fun i t v _ hv => by simp at hv⟩

theorem HandsAll.cons {types : List Ty} {place : Nat → Locus} {vs vs' : List Value}
    (hhead : s.Hands w t (place 0) v v')
    (htail : s.HandsAll w types (fun i => place (i + 1)) vs vs') :
    s.HandsAll w (t :: types) place (v :: vs) (v' :: vs') := by
  refine ⟨by simp [htail.1], fun i u x hu hx => ?_⟩
  cases i with
  | zero =>
      cases hu
      cases hx
      exact ⟨v', rfl, hhead⟩
  | succ i => exact htail.2 i u x hu hx

theorem wrap_hands {ε : Type} (s : Session) (t : Ty) (locus : Locus) (v : Value)
    (w : World) :
    ∃ v' w', s.wrap t locus v w = (.done v' w' : Outcome ε Value) ∧ w.Grows w' ∧
      s.Hands w' t locus v v' := by
  rcases s.wrap_cases (ε := ε) t locus v w with
    ⟨hdone, hplain⟩ | ⟨types, result, inner, seen, rfl, hlast, rfl, hdone⟩
  · exact ⟨v, w, hdone, .refl w, .value hplain⟩
  · have htypes : Ty.function types = .function (types.dropLast ++ [result]) := by
      rw [List.dropLast_append_getLast? _ hlast]
    exact ⟨_, _, hdone, w.grows_push _, .callback htypes (by simp)⟩

theorem wrapArguments_hands {ε : Type} (s : Session) (i : Nat) (vs : List Value)
    (w : World) :
    ∃ vs' w', s.wrapArguments i vs w = (.done vs' w' : Outcome ε (List Value)) ∧ w.Grows w' ∧
      w'.sessions = w.sessions ∧
      s.HandsAll w' (s.signature.params.drop i) (fun j => .root (i + j)) vs vs' := by
  induction vs generalizing i w with
  | nil => exact ⟨[], w, rfl, .refl w, rfl, handsAll_nil _ _⟩
  | cons v vs ih =>
      rw [wrapArguments]
      cases ht : s.signature.params[i]? with
      | some t =>
          obtain ⟨v', w₁, hwrap, hgrows₁, hhands⟩ := s.wrap_hands (ε := ε) t (.root i) v w
          obtain ⟨vs', w₂, hrest, hgrows₂, hsessions, hhandsAll⟩ := ih (i + 1) w₁
          refine ⟨v' :: vs', w₂, ?_, hgrows₁.trans hgrows₂,
            hsessions.trans (wrap_eq_done hwrap).2, ?_⟩
          · simp only
            rw [Action.bind_of_done hwrap, Action.bind_of_done hrest]
            rfl
          · rw [List.drop_eq_getElem_cons (List.getElem?_eq_some_iff.1 ht).1,
              (List.getElem?_eq_some_iff.1 ht).2]
            refine .cons (hhands.later hgrows₂) ?_
            simpa only [Nat.add_assoc, Nat.add_comm 1] using hhandsAll
      | none =>
          obtain ⟨vs', w', hrest, hgrows, hsessions, hlen, _⟩ := ih (i + 1) w
          refine ⟨v :: vs', w', ?_, hgrows, hsessions, by simp [hlen], ?_⟩
          · change ((s.wrapArguments (i + 1) vs >>= fun rest => pure (v :: rest)) w :
              Outcome ε (List Value)) = _
            rw [Action.bind_of_done hrest]
            rfl
          · intro j t x ht'
            rw [List.drop_eq_nil_of_le (List.getElem?_eq_none_iff.1 ht)] at ht'
            cases ht'

end Session

namespace Application

/-! ## What a body is run on -/

/-- A checked function runs its body on what its session hands over for the arguments,
however the body is run. -/
theorem invoke_hands {a : Application} {i : Nat} (ha : a.state? = some i) (w : World) :
    ∃ args w₁, w.Grows w₁ ∧ w₁.sessions = w.sessions ∧
      Session.wrapArguments ⟨a.signature, a.env, i⟩ 0 a.arguments w =
        (.done args w₁ : Outcome Diagnostic (List Value)) ∧
      Session.HandsAll ⟨a.signature, a.env, i⟩ w₁ a.signature.params .root a.arguments args ∧
      ∀ run : Body → List Value → Action Diagnostic Value,
        a.invoke run w = (run a.body args >>= Session.checkResult ⟨a.signature, a.env, i⟩) w₁ := by
  let s : Session := ⟨a.signature, a.env, i⟩
  obtain ⟨args, w₁, hwrap, hgrows, hsessions, hhands⟩ :=
    s.wrapArguments_hands (ε := Diagnostic) 0 a.arguments w
  simp only [List.drop_zero, Nat.zero_add] at hhands
  refine ⟨args, w₁, hgrows, hsessions, hwrap, hhands, fun run => ?_⟩
  have hinvoke : a.invoke run w =
      (s.wrapArguments 0 a.arguments >>= fun args => run a.body args >>= s.checkResult) w := by
    rw [invoke, session?, ha]
    rfl
  rw [hinvoke, Action.bind_of_done hwrap]

/-- Whether an outcome is that of the body of a checked function run once, in a world
that has grown from this one. A session of its own hands over what the body is run on,
and checks the result; until then it knows the bindings. -/
def RunsWith (signature : Signature) (env : List Ty) (body : Body) (depth : Nat)
    (b : Bindings) (xs : List Value) (w : World) (o : Outcome Diagnostic Value) :
    Prop :=
  ∃ (s : Session) (args : List Value) (w₁ : World),
    s.signature = signature ∧ s.env = env ∧ w.sessions.size ≤ s.state ∧ w.Grows w₁ ∧
    s.bindings w₁ = b ∧ s.HandsAll w₁ signature.params .root xs args ∧
    o = (body.run (callFunction depth) args >>= s.checkResult) w₁

/-- A body that is run in a world with more functions and sessions is run in this
one. -/
theorem RunsWith.of_extend {signature : Signature} {env : List Ty} {body : Body}
    {depth : Nat} {b : Bindings} {xs : List Value} {w : World} {made : List Application}
    {states : List SessionState} {o : Outcome Diagnostic Value}
    (hruns : RunsWith signature env body depth b xs (w.extend made states) o) :
    RunsWith signature env body depth b xs w o := by
  obtain ⟨s, args, w₁, hsignature, henv, hnew, hgrows, hrest⟩ := hruns
  rw [World.size_sessions_extend] at hnew
  exact ⟨s, args, w₁, hsignature, henv, by omega, (w.grows_extend made states).trans hgrows, hrest⟩

/-- Once all arguments have passed, the body is run with what they have told. -/
theorem runsWith_finish {a : Application} {ps : List (Value × Nat)} {xs : List Value}
    (hslots : put a.slots ps = xs.map some) (state : SessionState) (depth : Nat)
    (w : World) :
    RunsWith a.signature a.env a.body depth state.bindings xs w
      (a.finish ps (.ok (some state)) (Body.run (callFunction depth)) w) := by
  let c := a.advance ps (some w.sessions.size)
  have hc : c.arguments = xs := by
    change (put a.slots ps).filterMap id = xs
    simp [hslots]
  obtain ⟨args, w₁, hgrows, hsessions, _, hhands, hinvoke⟩ :=
    invoke_hands (a := c) rfl (w.extend [] [state])
  rw [hc] at hhands
  refine ⟨_, args, w₁, rfl, rfl, Nat.le_refl _, (w.grows_extend _ _).trans hgrows, ?_, hhands,
    hinvoke _⟩
  rw [Session.bindings, World.session, hsessions]
  exact congrArg SessionState.bindings (World.session_extend_size state)

/-- A pass over all arguments of a function ends in a run of the body, wherever it is
finished, or in the report on the first argument that fails. -/
theorem Unapplied.runs_or_refuses {signature : Signature} {env : List Ty} {body : Body}
    {w : World} {a : Application} (ha : a.Unapplied signature env true body w)
    {ps : List (Value × Nat)} {xs : List Value} (hslots : put a.slots ps = xs.map some)
    (h : Heap) (depth : Nat) :
    (∃ b, Runs (Passes h signature env) ps ∅ b ∧
      ∀ w', RunsWith signature env body depth b xs w'
        (a.finish ps (a.learn h ps (a.known w)) (Body.run (callFunction depth)) w')) ∨
    ∃ d, RefusedAtFirst h signature env ∅ ps d ∧
      ∀ w', a.finish ps (a.learn h ps (a.known w)) (Body.run (callFunction depth)) w' =
        .failed d w' := by
  obtain ⟨rfl, rfl, rfl, -, hchecked, -, hnothing⟩ := ha
  obtain ⟨i, hi⟩ := Option.isSome_iff_exists.1 hchecked
  rw [known, hi, Option.map_some, learn, ← hnothing i hi]
  cases hcheck : a.signature.checkAll h a.env ps (w.session i) with
  | ok state =>
      exact .inl ⟨_, runs_of_checkAll hcheck, runsWith_finish hslots state depth⟩
  | error d => exact .inr ⟨d, refusedAtFirst_of_checkAll hcheck, fun _ => rfl⟩

end Application

end DynamicTypes
