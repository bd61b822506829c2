import DynamicTypes.Proofs.ArrivalOrder
import DynamicTypes.Proofs.Execution

/-!
# Partial applications can be used again

A partial application is a value like any other. It may be called any number of times, with
arguments that pass and with arguments that fail, and anything may happen in between: bodies
catch failures, callbacks outlive the call that made them and are called later, other
functions are applied. `call_reused` says that none of it changes the slots of the
application or what its session knows.

The slots cannot change, as code never does. The session could: sessions do change, and
they are referred to by number. `Owned` is what makes it safe. The session of an application
is its own, so no callback refers to it and no other application has it. A run keeps this.
Code checks values only on sessions that it opens for a call or that callbacks refer to, it
makes callbacks for these sessions only, and a new application gets a session that did not
exist before.
-/

namespace DynamicTypes

/-! ## Who refers to a session -/

namespace World

/-- Whether callbacks refer to sessions that are there. -/
def Closed (w : World) : Prop :=
  ∀ c : Contract, .guarded c ∈ w.code → c.session.state < w.sessions.size

/-- Whether the session of an application is there, and the application is the only one
to refer to it. -/
structure Owned (w : World) : Prop where
  closed : w.Closed
  kept : w.Kept
  apart : ∀ (f : Nat) (a : Application), w.code[f]? = some (.applied a) →
    ∀ i ∈ a.state?, ∀ c : Contract, .guarded c ∈ w.code → c.session.state ≠ i
  alone : ∀ (f g : Nat) (a b : Application), w.code[f]? = some (.applied a) →
    w.code[g]? = some (.applied b) → ∀ i ∈ a.state?, i ∈ b.state? → f = g

variable {may : World → Nat → Prop} {access : Access} {w w' : World}

/-- Code works at positions of sessions that are there. -/
theorem Position.lt_size {s : Session} {t : Ty} {locus : Locus} (hclosed : w.Closed)
    (hplace : Position may w s t locus) : s.state < w.sessions.size := by
  cases hplace with
  | declared opened _ => exact opened.lt_size
  | callback there _ => exact hclosed _ there

theorem Effect.closed (hclosed : w.Closed) (heffect : Effect may w w') : w'.Closed := by
  intro c hc
  refine Nat.lt_of_lt_of_le ?_ heffect.size_sessions
  rcases heffect.guarded hc with hold | hplace
  · exact hclosed c hold
  · exact hplace.lt_size hclosed

theorem owned_empty : empty.Owned where
  closed c hc := by simp [empty] at hc
  kept f a hf := by simp [empty] at hf
  apart f a hf := by simp [empty] at hf
  alone f g a b hf := by simp [empty] at hf

/-! ## What runs do to owned sessions -/

/-- Code does not work at positions of the session of an application. -/
theorem Position.not_kept (howned : w.Owned) {s : Session} {t : Ty} {locus : Locus}
    (hplace : Position Access.unkept.may w s t locus) {f : Nat} {a : Application}
    (hf : w.code[f]? = some (.applied a)) : a.state? ≠ some s.state := by
  cases hplace with
  | declared opened _ => exact opened.may_use f a hf
  | callback there _ => exact fun hi => howned.apart f a hf _ hi _ there rfl

theorem Effect.owned (howned : w.Owned) (heffect : Effect Access.unkept.may w w') :
    w'.Owned := by
  have hsize := heffect.size_sessions
  have hclosed := heffect.closed howned.closed
  refine ⟨hclosed, Access.unkept.holds heffect howned.kept, ?_, ?_⟩
  · intro f a hf i hi c hc
    rcases heffect.applied hf with hold | hnone | ⟨hown, _, _⟩
    · rcases heffect.guarded hc with hguarded | hplace
      · exact howned.apart f a hold i hi c hguarded
      · exact fun heq => hplace.not_kept howned hold (heq ▸ hi)
    · rw [hnone] at hi
      cases hi
    · -- the session is new, and callbacks refer to older ones
      cases hown.symm.trans hi
      rcases heffect.guarded hc with hguarded | hplace
      · exact Nat.ne_of_lt (howned.closed c hguarded)
      · exact Nat.ne_of_lt (hplace.lt_size howned.closed)
  · intro f g a b hf hg i hi hi'
    rcases heffect.applied hf with hold | hnone | ⟨hown, hlast, _⟩
    · have hlt := howned.kept f a hold i hi
      rcases heffect.applied hg with hold' | hnone | ⟨hown', _, _⟩
      · exact howned.alone f g a b hold hold' i hi hi'
      · rw [hnone] at hi'
        cases hi'
      · cases hown'.symm.trans hi'
        omega
    · rw [hnone] at hi
      cases hi
    · cases hown.symm.trans hi
      rcases heffect.applied hg with hold' | hnone | ⟨_, hlast', _⟩
      · exact absurd (howned.kept g b hold' _ hi') (Nat.lt_irrefl _)
      · rw [hnone] at hi'
        cases hi'
      · rw [hlast, hlast']

theorem Run.owned (howned : w.Owned) (hrun : Run .unkept w w') : w'.Owned := by
  induction hrun with
  | refl => exact howned
  | tail _ heffect ih => exact heffect.owned ih

/-- Whatever is done, beginning with nothing, applications own their sessions. -/
theorem Later.owned (hlater : Later .unkept .empty w) : w.Owned :=
  (hlater.run owned_empty.kept).owned owned_empty

theorem Effect.session_of_owned (howned : w.Owned)
    (heffect : Effect Access.unkept.may w w') {f : Nat} {a : Application}
    (hf : w.code[f]? = some (.applied a)) {i : Nat} (hi : i ∈ a.state?) :
    w'.session i = w.session i := by
  rcases heffect.session (howned.kept f a hf i hi) with hsame | ⟨s, t, locus, v, hplace, rfl, _⟩
  · exact hsame
  · exact absurd hi (hplace.not_kept howned hf)

theorem Run.session_of_owned (howned : w.Owned) (hrun : Run .unkept w w') {f : Nat}
    {a : Application} (hf : w.code[f]? = some (.applied a)) {i : Nat}
    (hi : i ∈ a.state?) :
    w'.session i = w.session i := by
  induction hrun with
  | refl => rfl
  | tail hrun heffect ih =>
      rw [← ih]
      exact heffect.session_of_owned (Run.owned howned hrun) (Run.code hrun hf) hi

end World

/-! ## Using an application again -/

namespace Application

/-- Whether an application is in a world what it was in another one: the function is
still this application, its session has the state that it had, and nothing else refers
to the session. -/
structure Untouched (f : Nat) (w w' : World) (a : Application) : Prop where
  code : w'.code[f]? = some (.applied a)
  known : a.known w' = a.known w
  kept : ∀ i ∈ a.state?, i < w'.sessions.size
  apart : ∀ i ∈ a.state?, ∀ c : Contract, .guarded c ∈ w'.code → c.session.state ≠ i
  alone : ∀ i ∈ a.state?, ∀ (g : Nat) (b : Application), w'.code[g]? = some (.applied b) →
    i ∈ b.state? → g = f

theorem untouched_of_run {w w' : World} (howned : w.Owned)
    (hrun : World.Run .unkept w w') {f : Nat} {a : Application}
    (hf : w.code[f]? = some (.applied a)) : a.Untouched f w w' := by
  have hf' := hrun.code hf
  have howned' := hrun.owned howned
  refine ⟨hf', ?_, howned'.kept f a hf', howned'.apart f a hf', fun i hi g b hg hi' => ?_⟩
  · unfold known
    cases hstate : a.state? with
    | none => rfl
    | some i => exact congrArg some (hrun.session_of_owned howned hf hstate)
  · exact howned'.alone g f b a hg hf' i hi' hi

/-- In any program, beginning with nothing: once an application has been made, then
whatever is done after that, and whether it ends in a result or in a failure, the
application is what it was, and its session is its own. So every call of it takes
arguments starting from the same slots and from what was known then; a call whose
arguments are refused leaves the whole world as it was; and the application is still
what it was after the call, however the call ends. -/
theorem call_reused {w w' : World} (hprogram : World.Later .unkept .empty w) {f : Nat}
    {a : Application} (hf : w.code[f]? = some (.applied a))
    (hlater : World.Later .unkept w w') :
    a.Untouched f w w' ∧
    ∀ (depth : Nat) (info : FunctionInfo) (args : List Value),
      World.call (depth + 1) (.function f info) args w' =
        a.apply (Body.run (callFunction depth)) args w' ∧
      a.Takes (a.known w) args w' (a.fill args w') ∧
      (∀ d w'', a.fill args w' = .failed d w'' →
        World.call (depth + 1) (.function f info) args w' = .failed d w') ∧
      ∀ w'', (World.call (depth + 1) (.function f info) args w').Leaves w'' →
        a.Untouched f w w'' := by
  have howned := hprogram.owned
  have huntouched := untouched_of_run howned (hlater.run howned.kept) hf
  refine ⟨huntouched, fun depth info args => ⟨call_applied huntouched.code depth info args, ?_,
    fun d w'' hfailed => ?_, fun w'' hleft => ?_⟩⟩
  · rw [← huntouched.known]
    exact a.fill_takes args w'
  · have htakes := a.fill_takes args w'
    rw [hfailed] at htakes
    rw [call_applied huntouched.code]
    cases htakes <;> exact Action.bind_of_failed hfailed
  · have hcalled : World.Later .unkept w w'' := hlater.tail (.call (depth + 1) _ args hleft)
    exact untouched_of_run howned (hcalled.run howned.kept) hf

/-- Declares the function that gives the first of two arguments of one type. -/
def declareFirst : Expr :=
  .literal (.definition "first" [.var "a" [], .var "a" [], .var "a" []] ∅ (.arg 0 0)
    (Builtin.environment.map .type) true)

/-- What a session knows of the function's types once `true` has been taken for the
first slot. -/
def knownOfTrue : SessionState :=
  (default : SessionState).record
    ((firstOf "a" "a").argumentVerdict .empty Builtin.environment 0 (.bool true) ∅)

/-- The function once it has taken `true`. -/
def firstOfTrue : Application where
  signature := firstOf "a" "a"
  env := Builtin.environment
  body := ⟨.arg 0 0, []⟩
  slots := [some (.bool true), none]
  state? := some 1

/-- A program declares the function and applies it to `true`. The application refuses
null, then takes `false` and gives its result. After both it is what it was, and refuses
null again. -/
theorem call_reused_first :
    ∃ (info info' : FunctionInfo) (w w' : World) (v : Value) (d d' : Diagnostic),
      declareFirst.eval (callFunction 1) [] .empty = .done (.function 0 info)
        (worldOf .empty (firstOf "a" "a") Builtin.environment ⟨.arg 0 0, []⟩) ∧
      World.call 1 (.function 0 info) [.bool true]
        (worldOf .empty (firstOf "a" "a") Builtin.environment ⟨.arg 0 0, []⟩) =
          .done (.function 1 info') w ∧
      w.code[1]? = some (.applied firstOfTrue) ∧
      World.call 1 (.function 1 info') [.null] w = .failed d w ∧
      World.call 1 (.function 1 info') [.bool false] w = .done v w' ∧
      firstOfTrue.Untouched 1 w w' ∧
      World.call 1 (.function 1 info') [.null] w' = .failed d' w' := by
  let w₁ := worldOf .empty (firstOf "a" "a") Builtin.environment ⟨.arg 0 0, []⟩
  let a : Application :=
    ⟨firstOf "a" "a", Builtin.environment, ⟨.arg 0 0, []⟩, [none, none], some 0⟩
  let w := w₁.extend [firstOfTrue] [knownOfTrue]
  let info : FunctionInfo := ⟨"first", 2, some (firstOf "a" "a").format⟩
  let info' : FunctionInfo := ⟨"first", 1, some (firstOf "a" "a").format⟩
  have hdeclare : declareFirst.eval (callFunction 1) [] .empty = .done (.function 0 info) w₁ := rfl
  have htrue : a.learn w₁.heap (a.placed [.bool true]) (a.known w₁) = .ok (some knownOfTrue) := by
    change a.learn .empty [(.bool true, 0)] (some default) = _
    have hpasses : ((firstOf "a" "a").argumentVerdict .empty Builtin.environment 0 (.bool true)
        (default : SessionState).bindings).failure?.isNone = true := by decide +kernel
    rw [learn, Signature.checkAll, Option.isNone_iff_eq_none.1 hpasses]
    rfl
  have hpartial : World.call 1 (.function 0 info) [.bool true] w₁ =
      .done (.function 1 info') w := by
    have hargs : InArity a.openSlots [.bool true] := ⟨by decide, by simp⟩
    have hopen : left a.openSlots [.bool true] ≠ [] := by decide
    rw [call_applied (a := a) rfl]
    exact apply_of_open hargs htrue _ hopen
  have hprogram : World.Later .unkept .empty w :=
    .tail (.single (.evaluate 1 [] declareFirst (.inl ⟨_, hdeclare⟩)))
      (.call 1 _ _ (.inl ⟨_, hpartial⟩))
  let takes (w : World) : Bool :=
    (firstOfTrue.learn w.heap (firstOfTrue.placed [.null]) (firstOfTrue.known w)).isOk
  have hnull : InArity firstOfTrue.openSlots [.null] := ⟨by decide, by simp⟩
  have hrefused : ∀ w, (!takes w) = true → ∃ d, firstOfTrue.fill [.null] w = .failed d w := by
    intro w hw
    cases hlearn : firstOfTrue.learn w.heap (firstOfTrue.placed [.null]) (firstOfTrue.known w) with
    | error d => exact ⟨d, fill_of_refuses hnull hlearn⟩
    | ok next => simp [takes, hlearn, Except.isOk, Except.toBool] at hw
  obtain ⟨d, hd⟩ := hrefused w (by decide +kernel)
  obtain ⟨v, w', hdone, hw'⟩ : ∃ v w', World.call 1 (.function 1 info') [.bool false] w =
      .done v w' ∧ (!takes w') = true := Action.exists_done_of_endsIn (by decide +kernel)
  obtain ⟨d', hd'⟩ := hrefused w' hw'
  have hcode : w.code[1]? = some (.applied firstOfTrue) := rfl
  have hnow := call_reused hprogram hcode .refl
  have hlater := call_reused hprogram hcode (.single (.call 1 _ _ (.inl ⟨v, hdone⟩)))
  exact ⟨info, info', w, w', v, d, d', hdeclare, hpartial, hcode,
    (hnow.2 0 info' [.null]).2.2.1 d _ hd, hdone, hlater.1,
    (hlater.2 0 info' [.null]).2.2.1 d' _ hd'⟩

end Application

end DynamicTypes
