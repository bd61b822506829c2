import DynamicTypes.Proofs.ArrivalOrder
import DynamicTypes.Proofs.Reuse
import DynamicTypes.Proofs.Simulation

/-!
# Checks that pass make no difference

One function is there twice, with checks and without, and both are called with the same
groups of arguments. With checks the chain may be refused at an argument. If it is not, the
same body is run on the same arguments in both chains, but not in the same world: with
checks the functions that the chain made on its way have sessions, and the run has one too.
Where no position is declared with a function type nothing is wrapped, so nothing that the
body is given leads to either, and the two runs of the body end alike. The check of the
result only looks at it.
-/

namespace DynamicTypes

/-! ## Two runs side by side -/

namespace World

/-- Whether two worlds cannot be told apart by code that names functions numbered below
`n`, and those that the values are. -/
def Indistinct (n : Nat) (vs : List Value) (u w : World) : Prop :=
  ∃ ok m, (∀ f, f < n → ok f) ∧ (∀ v ∈ vs, v.Within ok) ∧ Alike ok m u w

variable {w : World}

/-- Code that refers to sessions which are there does not depend on later ones. -/
theorem shift_of_there (hclosed : w.Closed) (hkept : w.Kept) {f : Nat} {code : Code}
    (hcode : w.code[f]? = some code) (n : Nat) :
    code.shift ⟨w.sessions.size, n⟩ = code := by
  cases code with
  | host b => rfl
  | applied a =>
      cases hstate : a.state? with
      | none => rw [Code.shift, Application.shift, hstate, Option.map_none, ← hstate]
      | some i =>
          rw [Code.shift, Application.shift, hstate, Option.map_some,
            skip_of_lt (hkept f a hcode i hstate), ← hstate]
  | guarded c =>
      rw [Code.shift, Contract.shift, Session.shift,
        skip_of_lt (hclosed c (Array.mem_of_getElem? hcode))]

theorem code_extend_of_lt {f : Nat} (hf : f < w.code.size) (made : List Application)
    (states : List SessionState) : (w.extend made states).code[f]? = w.code[f]? :=
  Array.getElem?_append_left hf

theorem code_extend_of_le {f : Nat} {made : List Application}
    (hf : w.code.size + made.length ≤ f) (states : List SessionState) :
    (w.extend made states).code[f]? = none :=
  Array.getElem?_eq_none (by simpa using hf)

/-- Partial applications that nothing names, and sessions that nothing else refers to,
make no difference. -/
theorem alike_extend (hclosed : w.Closed) (hkept : w.Kept) (hbounded : w.Bounded)
    {made made' : List Application} (hmade : made.length = made'.length)
    (states : List SessionState) :
    Alike (fun f => f < w.code.size ∨ w.code.size + made'.length ≤ f)
      ⟨w.sessions.size, states.length⟩ (w.extend made states) (w.extend made' []) where
  heap := rfl
  labels := rfl
  size_code := by simp [hmade]
  code {f} hf := by
    rcases hf with hlt | hle
    · rw [code_extend_of_lt hlt, code_extend_of_lt hlt]
      cases hcode : w.code[f]? with
      | none => rfl
      | some code => rw [Option.map_some, shift_of_there hclosed hkept hcode]
    · rw [code_extend_of_le (hmade ▸ hle), code_extend_of_le hle, Option.map_none]
  new {f} hf := .inr (by simpa using hf)
  le_size := by simp
  size_sessions := by simp
  sessions k := by
    simp only [extend]
    rcases Nat.lt_or_ge k w.sessions.size with hlt | hge
    · rw [skip_of_lt hlt, Array.getElem?_append_left hlt]
      simp
    · rw [skip_of_le hge, Array.getElem?_eq_none (by simpa using hge), Array.getElem?_eq_none]
      simpa using hge
  tidy := by
    refine ⟨fun items hitems v hv => (hbounded.arrays items hitems v hv).mono fun _ => .inl,
      fun o ho p hp => (hbounded.objects o ho p hp).mono fun _ => .inl,
      fun p hp => (hbounded.labels p hp).mono fun _ => .inl, fun {f code} hf hcode => ?_⟩
    rcases hf with hlt | hle
    · rw [code_extend_of_lt hlt] at hcode
      exact Code.Within.mono (fun _ => .inl) (hbounded.code hlt hcode)
    · rw [code_extend_of_le hle] at hcode
      cases hcode

end World

namespace Session

theorem wrap_of_not_isFunction {ε : Type} {t : Ty} (ht : t.isFunction = false)
    (s : Session) (locus : Locus) (v : Value) :
    (s.wrap t locus v : Action ε Value) = pure v := by
  cases t with
  | function types => cases ht
  | _ => rfl

theorem wrapArguments_of_not_isFunction {ε : Type} {s : Session}
    (hplain : ∀ t ∈ s.signature.params, t.isFunction = false) (i : Nat)
    (vs : List Value) :
    (s.wrapArguments i vs : Action ε (List Value)) = pure vs := by
  induction vs generalizing i with
  | nil => rfl
  | cons v rest ih =>
      rw [wrapArguments, ih]
      cases ht : s.signature.params[i]? with
      | none => rfl
      | some t =>
          simp only
          rw [wrap_of_not_isFunction (hplain t (List.mem_of_getElem? ht))]
          rfl

/-- The check of a result that is not declared with a function type gives it back as it
is. -/
theorem checkResult_of_not_isFunction {s : Session}
    (hplain : s.signature.result.isFunction = false) {v v' : Value} {w w' : World}
    (hdone : s.checkResult v w = .done v' w') :
    v' = v ∧ ∃ state, w' = w.setSession s.state state := by
  obtain ⟨_, w₁, hcheck, hwrap⟩ := Action.done_of_bind hdone
  rw [wrap_of_not_isFunction hplain] at hwrap
  cases hwrap
  exact ⟨rfl, _, (leaves_conclude.1 (.inl ⟨_, hcheck⟩)).symm⟩

/-- What the check of a result on an additional session makes of two runs that end
alike: the results that pass are those of the other run. -/
theorem done_of_alike {s : Session} (hplain : s.signature.result.isFunction = false)
    {ok : Nat → Prop} {m : Gap} (hs : m.Has s.state) {x : Action Diagnostic Value}
    {u w : World} (hend : (x u).Alike ok m (Value.Within ok) (x w)) {v : Value}
    {u₂ : World} (hdone : (x >>= s.checkResult) u = .done v u₂) :
    ∃ w₂, x w = .done v w₂ ∧ v.Within ok ∧ World.Alike ok m u₂ w₂ := by
  obtain ⟨r, u₁, hx, hcheck⟩ := Action.done_of_bind hdone
  obtain ⟨rfl, state, rfl⟩ := checkResult_of_not_isFunction hplain hcheck
  rw [hx] at hend
  generalize x w = o at hend
  cases hend with
  | @done _ _ w₁ result worlds => exact ⟨w₁, rfl, result, worlds.setSession_left hs state⟩

end Session

theorem Outcome.Alike.failed_iff {ε α : Type} {ok : Nat → Prop} {m : Gap} {P : α → Prop}
    {o o' : Outcome ε α} (hend : o.Alike ok m P o') {e : ε} :
    (∀ u, o = .failed e u → ∃ w, o' = .failed e w ∧ World.Alike ok m u w) ∧
      ∀ w, o' = .failed e w → ∃ u, o = .failed e u ∧ World.Alike ok m u w := by
  cases hend with
  | failed worlds =>
      refine ⟨fun _ h => ?_, fun _ h => ?_⟩
      · cases h
        exact ⟨_, rfl, worlds⟩
      · cases h
        exact ⟨_, rfl, worlds⟩
  | done => exact ⟨nofun, nofun⟩
  | exhausted => exact ⟨nofun, nofun⟩

namespace Application

section Finish

variable {a : Application} {ps : List (Value × Nat)} {xs : List Value}
  (hslots : put a.slots ps = xs.map some) (run : Body → List Value → Action Diagnostic Value)
  (w : World)

include hslots

theorem arguments_advance (state? : Option Nat) :
    (a.advance ps state?).arguments = xs := by
  rw [arguments, advance, hslots]
  simp

theorem finish_unchecked : a.finish ps (.ok none) run w = run a.body xs w := by
  rw [finish, Option.map_none, Option.toList_none, World.extend_nil, invoke,
    arguments_advance hslots]
  rfl

/-- Without function types in the signature, the body is run on the arguments
themselves. -/
theorem finish_of_not_isFunction
    (hplain : ∀ t ∈ a.signature.params, t.isFunction = false) (state : SessionState) :
    a.finish ps (.ok (some state)) run w =
      (run a.body xs >>= Session.checkResult ⟨a.signature, a.env, w.sessions.size⟩)
        (w.extend [] [state]) := by
  let s : Session := ⟨a.signature, a.env, w.sessions.size⟩
  have hwrap : (s.wrapArguments 0 xs : Action Diagnostic (List Value)) = pure xs :=
    Session.wrapArguments_of_not_isFunction hplain 0 xs
  rw [finish, Option.map_some, Option.toList_some, invoke, arguments_advance hslots]
  change (s.wrapArguments 0 xs >>= fun args => run a.body args >>= s.checkResult) _ = _
  rw [hwrap]
  rfl

end Finish

/-- A function whose positions are not declared with function types is there with checks
and without, and both are called with arguments that fill all slots, in any grouping and
with placeholders. Without checks the body is run on the arguments in their slots. With
checks the chain is refused, if arguments do not pass in the order of their arrival, or
else the body is run on the very same arguments, in a world that it cannot tell from the
other one. If the chain with checks returns a result then the one without returns the
same result; and a failure of the body is the outcome of both. -/
theorem checks_transparent (signature : Signature) (env : List Ty) (body : Body)
    (hplain : ∀ t ∈ signature.types, t.isFunction = false) (w : World)
    (hclosed : w.Closed) (hkept : w.Kept) (hbounded : w.Bounded) (f g : Nat)
    (hf : w.Defines f signature env true body)
    (hg : w.Defines g signature env false body) (groups : List (List Value))
    (hfills : FillsAll (List.range signature.arity) groups)
    (hargs : ∀ args ∈ groups, ∀ v ∈ args, v.Within (· < w.code.size)) (depth : Nat)
    (info info' : FunctionInfo) (o o' : Outcome Diagnostic Value)
    (ho : World.callAll (depth + 1) groups (.function f info) w = o)
    (ho' : World.callAll (depth + 1) groups (.function g info') w = o') :
    ∃ (xs : List Value) (made : List Application), xs.length = signature.arity ∧
      (∀ i v, xs[i]? = some v ↔ (v, i) ∈ arrived (List.range signature.arity) groups) ∧
      o' = body.run (callFunction depth) xs (w.extend made []) ∧
      (∀ v u₂, o = .done v u₂ →
        ∃ w₂, o' = .done v w₂ ∧ u₂.Indistinct w.code.size [v] w₂) ∧
      (((∀ b, ¬ Runs (Passes w.heap signature env)
          (arrived (List.range signature.arity) groups) ∅ b) ∧
        ∃ d made' states, o = .failed d (w.extend made' states)) ∨
      ∃ (s : Session) (u₁ : World), s.signature = signature ∧ s.env = env ∧
        u₁.Indistinct w.code.size xs (w.extend made []) ∧
        o = (body.run (callFunction depth) xs >>= s.checkResult) u₁ ∧
        (∀ d u₂, body.run (callFunction depth) xs u₁ = .failed d u₂ →
          o = .failed d u₂ ∧ ∃ w₂, o' = .failed d w₂ ∧ u₂.Indistinct w.code.size [] w₂) ∧
        ∀ d w₂, o' = .failed d w₂ →
          ∃ u₂, o = .failed d u₂ ∧ u₂.Indistinct w.code.size [] w₂) := by
  obtain ⟨xs, hsupply⟩ := hfills.exists_supplies
  obtain ⟨a, hcode, ha⟩ := hf
  obtain ⟨b, hcode', hb⟩ := hg
  have hbody : body.Within (· < w.code.size) :=
    hb.body_eq ▸ (hbounded.code (Array.getElem?_eq_some_iff.1 hcode').1 hcode').1
  have hslots : put a.slots (arrived (List.range signature.arity) groups) = xs.map some := by
    rw [ha.slots_eq, hsupply.put_slots]
  have hslots' : put b.slots (arrived (List.range signature.arity) groups) = xs.map some := by
    rw [hb.slots_eq, hsupply.put_slots]
  obtain ⟨made, states, _, _, _, hmade, hcalls⟩ :=
    callAll_eq_finish hcode (ha.openSlots.symm ▸ hfills) depth info
  obtain ⟨made', states', _, _, hnone, hmade', hcalls'⟩ :=
    callAll_eq_finish hcode' (hb.openSlots.symm ▸ hfills) depth info'
  -- without checks nothing is learned, and all there is on the way are applications
  have hunchecked : b.state? = none := by simpa using hb.checked_eq
  have hlearn' : b.learn w.heap (arrived b.openSlots groups) (b.known w) = .ok none := by
    rw [known, hunchecked]
    rfl
  obtain rfl := hnone hunchecked
  rw [ho', hlearn', hb.openSlots, finish_unchecked hslots', hb.body_eq] at hcalls'
  refine ⟨xs, made', hsupply.length_eq, fun i v => hsupply.mem_arrived.symm, hcalls', ?_⟩
  obtain ⟨i, hi⟩ := Option.isSome_iff_exists.1 ha.checked_eq
  rw [ho] at hcalls
  rw [ha.openSlots, known, hi, Option.map_some, learn, ha.signature_eq, ha.env_eq] at hcalls hmade
  cases hcheck : signature.checkAll w.heap env (arrived (List.range signature.arity) groups)
    (w.session i) with
  | error d =>
      rw [hcheck] at hcalls
      have hrefused := refusedAtFirst_of_checkAll hcheck
      rw [ha.nothing i hi] at hrefused
      refine ⟨fun v u₂ hdone => ?_, .inl ⟨hrefused.not_runs, d, made, states, hcalls⟩⟩
      cases hcalls.symm.trans hdone
  | ok state =>
      have hcount : made.length = made'.length := by
        have hlength := hmade (some state) (by rw [hcheck]; rfl)
        have hlength' := hmade' none hlearn'
        omega
      rw [hcheck] at hcalls
      change o = a.finish _ (.ok (some state)) _ _ at hcalls
      rw [finish_of_not_isFunction hslots _ _
        (by rw [ha.signature_eq]; exact fun t ht => hplain t (List.mem_append_left _ ht)),
        World.extend_extend, List.append_nil, ha.signature_eq, ha.env_eq, ha.body_eq] at hcalls
      let s : Session := ⟨signature, env, (w.extend made states).sessions.size⟩
      let u₁ : World := w.extend made (states ++ [state])
      let ok : Nat → Prop := fun f => f < w.code.size ∨ w.code.size + made'.length ≤ f
      let m : Gap := ⟨w.sessions.size, (states ++ [state]).length⟩
      have hs : m.Has s.state := by
        simp only [Gap.Has, m, s, World.size_sessions_extend, List.length_append,
          List.length_singleton]
        omega
      have hthere : ∀ f, f < w.code.size → ok f := fun _ => .inl
      have hworlds : World.Alike ok m u₁ (w.extend made' []) :=
        World.alike_extend hclosed hkept hbounded hcount _
      have hxs : ∀ v ∈ xs, v.Within ok := by
        intro v hv
        obtain ⟨j, hj⟩ := List.mem_iff_getElem?.1 hv
        exact (within_arrived _ hargs (v, j) (hsupply.mem_arrived.2 hj)).mono hthere
      have hend : (body.run (callFunction depth) xs u₁).Alike ok m (Value.Within ok)
          (body.run (callFunction depth) xs (w.extend made' [])) :=
        Body.steady_run (steadyCalls_callFunction depth) (hbody.mono hthere) hxs u₁ _ hworlds
      refine ⟨fun v u₂ hdone => ?_, .inr ⟨s, u₁, rfl, rfl, ⟨ok, m, hthere, hxs, hworlds⟩, hcalls,
        fun d u₂ hfailed => ?_, fun d w₂ hfailed' => ?_⟩⟩
      · obtain ⟨w₂, hdone', hv, halike⟩ := Session.done_of_alike
          (hplain _ (by simp [s, Signature.types])) hs hend (hcalls.symm.trans hdone)
        exact ⟨w₂, hcalls'.trans hdone', ok, m, hthere, by simpa using hv, halike⟩
      · obtain ⟨w₂, hfailed', halike⟩ := hend.failed_iff.1 u₂ hfailed
        exact ⟨hcalls.trans (Action.bind_of_failed hfailed), w₂, hcalls'.trans hfailed', ok, m,
          hthere, List.forall_mem_nil _, halike⟩
      · obtain ⟨u₂, hfailed, halike⟩ := hend.failed_iff.2 w₂ (hcalls'.symm.trans hfailed')
        exact ⟨u₂, hcalls.trans (Action.bind_of_failed hfailed), ok, m, hthere,
          List.forall_mem_nil _, halike⟩

/-- Appends a value to an array of its type, and gives the array. -/
def appendSignature : Signature :=
  ⟨"append", ∅, [.var "a" [], Builtin.array (.var "a" [])], Builtin.array (.var "a" []),
    by decide⟩

/-- The array comes first, then a value for it. The very same array comes back, with
checks and without, and the value has been appended to it in both worlds. -/
theorem checks_transparent_append :
    ∃ (w u₂ w₂ : World) (body : Body) (info : FunctionInfo), w.Closed ∧ w.Kept ∧ w.Bounded ∧
      w.Defines 0 appendSignature Builtin.environment true body ∧
      w.Defines 1 appendSignature Builtin.environment false body ∧
      FillsAll (List.range 2) [[.placeholder, .array 0], [.bool true]] ∧
      World.callAll 1 [[.placeholder, .array 0], [.bool true]] (.function 0 info) w =
        .done (.array 0) u₂ ∧
      World.callAll 1 [[.placeholder, .array 0], [.bool true]] (.function 1 info) w =
        .done (.array 0) w₂ ∧
      u₂.heap.items 0 = [.bool false, .bool true] ∧ u₂.Indistinct 2 [.array 0] w₂ := by
  let body : Body := ⟨.push (.arg 1 0) (.arg 0 0), []⟩
  let app (state? : Option Nat) : Application :=
    ⟨appendSignature, Builtin.environment, body, List.replicate 2 none, state?⟩
  let w : World :=
    ⟨⟨#[[.bool false]], #[]⟩, #[.applied (app (some 0)), .applied (app none)], #[default], ∅⟩
  let info : FunctionInfo := ⟨"append", 2, none⟩
  let groups : List (List Value) := [[.placeholder, .array 0], [.bool true]]
  have hfills : FillsAll (List.range 2) groups :=
    .more ⟨by decide, by simp⟩ (by decide) (.last ⟨by decide, by simp⟩ (by decide))
  have hclosed : w.Closed := fun c hc => by simp [w] at hc
  have happ : ∀ {f : Nat} {code : Code}, w.code[f]? = some code →
      code = .applied (app (some 0)) ∨ code = .applied (app none) := by
    intro f code hcode
    simpa [w] using Array.mem_of_getElem? hcode
  have hkept : w.Kept := by
    intro f a hcode i hi
    rcases happ hcode with heq | heq
    · cases heq
      cases hi
      exact Nat.zero_lt_one
    · cases heq
      cases hi
  have hwithin : ∀ state?, (Code.applied (app state?)).Within (· < w.code.size) := fun state? =>
    ⟨⟨.nil, List.forall_mem_nil _⟩, fun v hv => by cases List.eq_of_mem_replicate hv⟩
  have hbounded : w.Bounded := by
    refine ⟨by simp [w, Value.Within, Names, Value.refs], by simp [w], List.forall_mem_nil _,
      fun {f code} _ hcode => ?_⟩
    rcases happ hcode with rfl | rfl
    · exact hwithin (some 0)
    · exact hwithin none
  have hdefines : w.Defines 0 appendSignature Builtin.environment true body :=
    (defines_worldOf ⟨#[[.bool false]], #[]⟩ _ _ _).of_grows (World.grows_push _ _) rfl
  have hdefines' : w.Defines 1 appendSignature Builtin.environment false body := by
    refine ⟨app none, rfl, rfl, rfl, rfl, rfl, rfl, fun i hi => ?_, fun i hi => ?_⟩
    · cases hi
    · cases hi
  have hargs : ∀ args ∈ groups, ∀ v ∈ args, v.Within (· < w.code.size) := by
    simp [groups, Value.Within, Names, Value.refs]
  obtain ⟨w₂, hunchecked⟩ : ∃ w₂, World.callAll 1 groups (.function 1 info) w =
    .done (.array 0) w₂ := ⟨_, rfl⟩
  obtain ⟨v, u₂, hchecked, hitems⟩ : ∃ v u₂,
      World.callAll 1 groups (.function 0 info) w = .done v u₂ ∧
      decide (u₂.heap.items 0 = [.bool false, .bool true]) = true :=
    Action.exists_done_of_endsIn (by decide +kernel)
  obtain ⟨xs, made, _, _, _, hdone, _⟩ :=
    checks_transparent appendSignature Builtin.environment body (by decide +kernel) w hclosed hkept
      hbounded 0 1 hdefines hdefines' groups hfills hargs 0 info info _ _ hchecked hunchecked
  obtain ⟨w₂', hsame, hindistinct⟩ := hdone v u₂ rfl
  cases hsame
  exact ⟨w, u₂, w₂, body, info, hclosed, hkept, hbounded, hdefines, hdefines', hfills, hchecked,
    hunchecked, of_decide_eq_true hitems, hindistinct⟩

end Application

end DynamicTypes
