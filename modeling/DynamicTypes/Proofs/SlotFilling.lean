import DynamicTypes.Proofs.Boundary

/-!
# Every argument in its slot

A caller who has a value for each slot of a function may hand them out as it pleases:
some with this call, some with a later one, with placeholders for slots to be skipped. Each
call fills some of the slots that are open when it is made, and which ones are open
depends on all calls before it.

What stays the same is that a slot which is filled has its own value. `Filling` is that
invariant of a partial application, `Filling.call` is what one call does to it, and when no
slot is open the body gets the values of the caller in the order of the slots. Checks make
no difference to this; they can only refuse a call.
-/

namespace DynamicTypes.Application

/-- Whether a call gives at least one open slot, and no more than there are, the value
meant for it or a placeholder. -/
def Gives (xs : List Value) (slots : List Nat) (args : List Value) : Prop :=
  args ≠ [] ∧ args.length ≤ slots.length ∧
    ∀ p ∈ args.zip slots, p.1.isPlaceholder = true ∨ xs[p.2]? = some p.1

instance (xs : List Value) (slots : List Nat) (args : List Value) :
    Decidable (Gives xs slots args) :=
  inferInstanceAs (Decidable (_ ∧ _ ∧ _))

/-- Whether the calls with these arguments give the slots that are open at the time what
is meant for them, and the slots that are open in the end. -/
inductive Feeds (xs : List Value) : List Nat → List (List Value) → List Nat → Prop where
  | done (slots : List Nat) : Feeds xs slots [] slots
  | call {slots rest : List Nat} {args : List Value} {groups : List (List Value)}
      (gives : Gives xs slots args) (later : Feeds xs (left slots args) groups rest) :
      Feeds xs slots (args :: groups) rest

/-- Whether an application is one of this function with just these slots open, and with
the values meant for them in the others. -/
structure Filling (signature : Signature) (env : List Ty) (checked : Bool) (body : Body)
    (xs : List Value) (slots : List Nat) (a : Application) : Prop where
  signature_eq : a.signature = signature
  env_eq : a.env = env
  body_eq : a.body = body
  checked_eq : a.state?.isSome = checked
  length_slots : a.slots.length = xs.length
  openSlots_eq : a.openSlots = slots
  filled : ∀ (i : Nat) (v : Value), a.slots[i]? = some (some v) → xs[i]? = some v

/-- Whether an outcome is that of the body run once, in this world, on the values or,
with checks, on what is handed over for them. -/
def RunsOn (signature : Signature) (checked : Bool) (body : Body) (depth : Nat)
    (xs : List Value) (w : World) (o : Outcome Diagnostic Value) : Prop :=
  checked = false ∧ o = body.run (callFunction depth) xs w ∨
  checked = true ∧ ∃ (s : Session) (args : List Value) (w₁ : World),
    s.signature = signature ∧ w.Grows w₁ ∧ s.HandsAll w₁ signature.params .root xs args ∧
    o = (body.run (callFunction depth) args >>= s.checkResult) w₁

/-- The world with one more application, and perhaps its session, and the function that
it is, which takes as many arguments as slots are open. -/
def made (a : Application) (states : List SessionState) (w : World) :
    Outcome Diagnostic Value :=
  .done (.function w.code.size ⟨a.signature.name, a.openSlots.length, some a.signature.format⟩)
    (w.extend [a] states)

/-! ## One call -/

theorem Gives.inArity {xs : List Value} {slots : List Nat} {args : List Value}
    (hgives : Gives xs slots args) : InArity slots args :=
  ⟨hgives.2.1, fun hnil => absurd hnil hgives.1⟩

/-- A session that is opened for the run makes no difference. -/
theorem RunsOn.of_extend {signature : Signature} {checked : Bool} {body : Body}
    {depth : Nat} {xs : List Value} {w : World} {state? : Option SessionState}
    {o : Outcome Diagnostic Value}
    (hruns : RunsOn signature checked body depth xs (w.extend [] state?.toList) o)
    (hstate : state?.isSome = checked) :
    RunsOn signature checked body depth xs w o := by
  rcases hruns with ⟨rfl, ho⟩ | ⟨rfl, s, args, w₁, hs, hgrows, hrest⟩
  · obtain rfl : state? = none := by simpa using hstate
    rw [Option.toList_none, World.extend_nil] at ho
    exact .inl ⟨rfl, ho⟩
  · exact .inr ⟨rfl, s, args, w₁, hs, (w.grows_extend _ _).trans hgrows, hrest⟩

namespace Filling

variable {signature : Signature} {env : List Ty} {checked : Bool} {body : Body}
  {xs args : List Value} {slots : List Nat} {a : Application}

theorem of_unapplied {w : World} (ha : a.Unapplied signature env checked body w)
    (hxs : xs.length = signature.arity) :
    Filling signature env checked body xs (List.range signature.arity) a where
  signature_eq := ha.signature_eq
  env_eq := ha.env_eq
  body_eq := ha.body_eq
  checked_eq := ha.checked_eq
  length_slots := by rw [ha.slots_eq, List.length_replicate, hxs]
  openSlots_eq := ha.openSlots
  filled i v hv := by
    rw [ha.slots_eq, List.getElem?_replicate] at hv
    split at hv <;> cases hv

/-- The arguments of a call that goes through arrive in their own slots. -/
theorem advance (ha : Filling signature env checked body xs slots a)
    (hgives : Gives xs slots args) {state? : Option Nat}
    (hstate : state?.isSome = checked) :
    Filling signature env checked body xs (left slots args)
      (a.advance (a.placed args) state?) where
  signature_eq := ha.signature_eq
  env_eq := ha.env_eq
  body_eq := ha.body_eq
  checked_eq := hstate
  length_slots := (length_put _ _).trans ha.length_slots
  openSlots_eq := (openSlots_advance a args state?).trans (by rw [ha.openSlots_eq])
  filled i v hv := by
    change (put a.slots (a.placed args))[i]? = some (some v) at hv
    by_cases hi : i ∈ (a.placed args).map (·.2)
    · obtain ⟨p, hp, rfl⟩ := List.mem_map.1 hi
      have hlt := (List.getElem?_eq_some_iff.1 (mem_placed hp)).1
      rw [getElem?_put_of_mem (a.nodup_placed args) hp hlt] at hv
      obtain ⟨hzip, hvalue⟩ := List.mem_filter.1 hp
      rw [ha.openSlots_eq] at hzip
      rcases hgives.2.2 p hzip with hplaceholder | hown
      · rw [hplaceholder] at hvalue
        cases hvalue
      · rw [hown, ← Option.some.inj (Option.some.inj hv)]
    · rw [getElem?_put_of_not_mem hi] at hv
      exact ha.filled i v hv

/-- Once no slot is open, the arguments are the values of the caller. -/
theorem arguments_eq (ha : Filling signature env checked body xs [] a) :
    a.arguments = xs := by
  have hslots : a.slots = a.arguments.map some := eq_map_some (isComplete_iff.2 ha.openSlots_eq)
  have hlength : a.arguments.length = xs.length := by
    rw [← ha.length_slots, hslots, List.length_map]
  refine List.ext_getElem? fun i => ?_
  cases hi : a.arguments[i]? with
  | none =>
      rw [List.getElem?_eq_none_iff, hlength] at hi
      exact (List.getElem?_eq_none hi).symm
  | some v =>
      refine (ha.filled i v ?_).symm
      rw [hslots, List.getElem?_map, hi]
      rfl

theorem invoke_runsOn (ha : Filling signature env checked body xs [] a) (depth : Nat)
    (w : World) :
    RunsOn signature checked body depth xs w (a.invoke (Body.run (callFunction depth)) w) := by
  have harguments := ha.arguments_eq
  obtain ⟨rfl, rfl, rfl, rfl, -, -, -⟩ := ha
  cases hstate : a.state? with
  | none =>
      refine .inl ⟨rfl, ?_⟩
      rw [invoke, session?, hstate, harguments]
      rfl
  | some i =>
      obtain ⟨args, w₁, hgrows, _, _, hhands, hinvoke⟩ := invoke_hands hstate w
      rw [harguments] at hhands
      exact .inr ⟨rfl, _, args, w₁, rfl, hgrows, hhands, hinvoke _⟩

/-- A call in which checks refuse an argument fails and does nothing. Any other leaves
an application with the slots open that it has not filled: that is the new function, or
the body is run on it if no slot is open. -/
theorem call (ha : Filling signature env checked body xs slots a) {w : World} {f : Nat}
    (hcode : w.code[f]? = some (.applied a)) (hgives : Gives xs slots args)
    (depth : Nat) (info : FunctionInfo) :
    (checked = true ∧ ∃ d, a.fill args w = .failed d w ∧
      World.call (depth + 1) (.function f info) args w = .failed d w) ∨
    ∃ next, ∃ state? : Option SessionState,
      Filling signature env checked body xs (left slots args) next ∧ state?.isSome = checked ∧
      (left slots args ≠ [] →
        World.call (depth + 1) (.function f info) args w = next.made state?.toList w) ∧
      (left slots args = [] →
        RunsOn signature checked body depth xs w
          (World.call (depth + 1) (.function f info) args w)) := by
  have hargs : InArity a.openSlots args := ha.openSlots_eq ▸ hgives.inArity
  have hknown : (a.known w).isSome = checked := by rw [known, Option.isSome_map, ha.checked_eq]
  rw [call_applied hcode]
  cases hlearn : a.learn w.heap (a.placed args) (a.known w) with
  | error d =>
      refine .inl ⟨?_, d, fill_of_refuses hargs hlearn, apply_of_refuses hargs hlearn _⟩
      cases hstate : a.known w with
      | none =>
          rw [hstate] at hlearn
          cases hlearn
      | some state => rw [← hknown, hstate, Option.isSome_some]
  | ok state? =>
      have hstate : state?.isSome = checked := (isSome_of_learn hlearn).trans hknown
      have hown : (state?.map fun _ => w.sessions.size).isSome = checked := by
        rw [Option.isSome_map, hstate]
      have hnext := ha.advance hgives hown
      refine .inr ⟨_, state?, hnext, hstate, fun hopen => ?_, fun hfull => ?_⟩
      · rw [← ha.openSlots_eq] at hopen
        rw [apply_of_open hargs hlearn _ hopen, made, openSlots_advance]
        rfl
      · rw [apply_of_full hargs hlearn _ (ha.openSlots_eq ▸ hfull)]
        exact (invoke_runsOn (hfull ▸ hnext) depth _).of_extend hstate

end Filling

/-! ## Chains of calls -/

theorem Feeds.slots_ne_nil {xs : List Value} {slots rest : List Nat}
    {groups : List (List Value)} (hfeeds : Feeds xs slots groups rest)
    (hgroups : groups ≠ []) : slots ≠ [] := by
  cases hfeeds with
  | done => exact absurd rfl hgroups
  | call gives _ =>
      rintro rfl
      exact gives.1 (List.length_eq_zero_iff.1 (Nat.le_zero.1 gives.2.1))

/-- Calls that feed a function can be made one after the other. -/
theorem Filling.exists_chain {signature : Signature} {env : List Ty} {checked : Bool}
    {body : Body} {xs : List Value} {slots rest : List Nat} {groups : List (List Value)}
    (hfeeds : Feeds xs slots groups rest) (hgroups : groups ≠ []) {a : Application}
    (ha : Filling signature env checked body xs slots a) {w : World} {f : Nat}
    (hcode : w.code[f]? = some (.applied a)) (depth : Nat) (info : FunctionInfo) :
    ∃ stages o, stages.map (·.args) = groups ∧ Chain depth w (.function f info) stages o := by
  induction hfeeds generalizing a w f info with
  | done => exact absurd rfl hgroups
  | @call slots rest args groups gives later ih =>
      by_cases hlast : groups = []
      · exact ⟨[⟨w, args⟩], _, by rw [hlast]; rfl, .last args⟩
      rcases ha.call hcode gives depth info with
        ⟨_, d, _, hfailed⟩ | ⟨next, state?, hnext, _, hmade, _⟩
      · refine ⟨⟨w, args⟩ :: groups.map (⟨w, ·⟩), _, ?_, .stops _ hfailed⟩
        rw [List.map_cons, List.map_map]
        exact congrArg (args :: ·) (List.map_id _)
      · obtain ⟨stages, o, hstages, hchain⟩ := ih hlast hnext
          (w := w.extend [next] state?.toList) (f := w.code.size) (by simp [World.extend]) _
        refine ⟨⟨w, args⟩ :: stages, o, by rw [List.map_cons, hstages], ?_⟩
        exact .goesOn (hmade (later.slots_ne_nil hlast)) .refl hchain

/-- What a chain of calls that feed a function comes to. -/
theorem Filling.chain {signature : Signature} {env : List Ty} {checked : Bool}
    {body : Body} {xs : List Value} {depth : Nat} {w : World} {g : Value}
    {stages : List Stage} {o : Outcome Diagnostic Value}
    (hchain : Chain depth w g stages o) {slots rest : List Nat} {a : Application}
    (ha : Filling signature env checked body xs slots a) {f : Nat} {info : FunctionInfo}
    (hg : g = .function f info) (hcode : w.code[f]? = some (.applied a))
    (hfeeds : Feeds xs slots (stages.map (·.args)) rest) :
    (checked = true ∧ ∃ d, ∃ stage ∈ stages, ∃ slots' a',
      Filling signature env checked body xs slots' a' ∧
      a'.fill stage.args stage.world = .failed d stage.world ∧ o = .failed d stage.world) ∨
    ∃ stage ∈ stages.getLast?, ∃ next, ∃ state? : Option SessionState,
      Filling signature env checked body xs rest next ∧ state?.isSome = checked ∧
      (rest ≠ [] → o = next.made state?.toList stage.world) ∧
      (rest = [] → RunsOn signature checked body depth xs stage.world o) := by
  induction hchain generalizing slots a f info with
  | @last w g args =>
      subst hg
      cases hfeeds with
      | call gives later =>
          cases later
          rcases ha.call hcode gives depth info with ⟨hchecked, d, hfill, hfailed⟩ | hnext
          · exact .inl ⟨hchecked, d, ⟨w, args⟩, by simp, slots, a, ha, hfill, hfailed⟩
          · exact .inr ⟨⟨w, args⟩, rfl, hnext⟩
  | @stops w w' g args d stages failed =>
      subst hg
      cases hfeeds with
      | call gives later =>
          rcases ha.call hcode gives depth info with ⟨hchecked, d', hfill, hfailed⟩ | hnext
          · cases failed.symm.trans hfailed
            exact .inl ⟨hchecked, d, ⟨w, args⟩, by simp, slots, a, ha, hfill, rfl⟩
          · by_cases hlast : stages = []
            · subst hlast
              cases later
              exact .inr ⟨⟨w, args⟩, rfl, failed ▸ hnext⟩
            · obtain ⟨next, state?, _, _, hmade, _⟩ := hnext
              have hopen := later.slots_ne_nil fun hnil => hlast (List.map_eq_nil_iff.1 hnil)
              cases failed.symm.trans (hmade hopen)
  | @goesOn w w₁ w₂ g g' args stages o done between next ih =>
      subst hg
      cases hfeeds with
      | call gives later =>
          have hlast : stages ≠ [] := by
            rintro rfl
            cases next
          have hopen := later.slots_ne_nil fun hnil => hlast (List.map_eq_nil_iff.1 hnil)
          rcases ha.call hcode gives depth info with
            ⟨_, d, _, hfailed⟩ | ⟨b, state?, hb, _, hmade, _⟩
          · cases done.symm.trans hfailed
          cases done.symm.trans (hmade hopen)
          have hcode' : w₂.code[w.code.size]? = some (.applied b) :=
            (between.run (Nat.zero_le _)).code (by simp [World.extend])
          rcases ih hb rfl hcode' later with
            ⟨hchecked, d, stage, hstage, hrefused⟩ | ⟨stage, hstage, h⟩
          · exact .inl ⟨hchecked, d, stage, List.mem_cons_of_mem _ hstage, hrefused⟩
          · refine .inr ⟨stage, ?_, h⟩
            rw [List.getLast?_cons, Option.mem_def.1 hstage]
            rfl

/-- A caller with a value for every slot of a function hands them out over one or more
calls, each of which gives the first few of the slots then open their values or
placeholders. Such calls can always be made, whatever happens between them. Without
checks no call fails before the body is run; with checks a call may be refused, and then
the body is not run. Otherwise, as long as slots are open, the last call leaves nothing
but a function that takes as many arguments as there are open slots, with a session of
its own if there are checks; and once there are none, it is one run of the body, on all
the values in the order of the slots. -/
theorem Chain.slots_filled {signature : Signature} {env : List Ty} {checked : Bool}
    {body : Body} {w : World} {f : Nat}
    (hdefines : w.Defines f signature env checked body) (info : FunctionInfo)
    (depth : Nat) {xs : List Value} (hxs : xs.length = signature.arity)
    {groups : List (List Value)} (hgroups : groups ≠ []) {rest : List Nat}
    (hfeeds : Feeds xs (List.range signature.arity) groups rest) :
    (∃ stages o, stages.map (·.args) = groups ∧ Chain depth w (.function f info) stages o) ∧
    ∀ stages o, stages.map (·.args) = groups → Chain depth w (.function f info) stages o →
      (checked = true ∧ ∃ d, ∃ stage ∈ stages, ∃ slots a,
        Filling signature env checked body xs slots a ∧
        a.fill stage.args stage.world = .failed d stage.world ∧ o = .failed d stage.world) ∨
      ∃ stage ∈ stages.getLast?,
        (rest ≠ [] → ∃ next, ∃ state? : Option SessionState,
          Filling signature env checked body xs rest next ∧ state?.isSome = checked ∧
          o = .done
            (.function stage.world.code.size ⟨signature.name, rest.length, some signature.format⟩)
            (stage.world.extend [next] state?.toList)) ∧
        (rest = [] → RunsOn signature checked body depth xs stage.world o) := by
  obtain ⟨a, hcode, ha⟩ := hdefines
  have hfilling := Filling.of_unapplied ha hxs
  refine ⟨hfilling.exists_chain hfeeds hgroups hcode depth info, ?_⟩
  rintro stages o rfl hchain
  rcases hfilling.chain hchain rfl hcode hfeeds with
    hrefused | ⟨stage, hstage, next, state?, hnext, hstate, hmade, hrun⟩
  · exact .inl hrefused
  · refine .inr ⟨stage, hstage, fun hopen => ⟨next, state?, hnext, hstate, ?_⟩, hrun⟩
    rw [hmade hopen, made, hnext.openSlots_eq, hnext.signature_eq]

/-- Two booleans with a callback between them. -/
def betweenSignature : Signature :=
  ⟨"between", ∅, [Builtin.boolean, .function [Builtin.null, Builtin.null], Builtin.boolean],
    Builtin.boolean, by decide⟩

/-- The callback comes first, then the last argument and then the first. All pass, and
the body is run on what is handed over for the three of them. -/
theorem Chain.slots_filled_between :
    ∃ (w : World) (body : Body) (info : FunctionInfo) (g : Value) (groups : List (List Value)),
      w.Defines 0 betweenSignature [] true body ∧
      groups = [[.placeholder, g], [.placeholder, .bool false], [.bool true]] ∧
      Feeds [.bool true, g, .bool false] (List.range betweenSignature.arity) groups [] ∧
      ∃ (stages : List Stage) (o : Outcome Diagnostic Value),
        stages.map (·.args) = groups ∧ Chain 0 w (.function 0 info) stages o ∧
        ∃ stage ∈ stages.getLast?,
          RunsOn betweenSignature true body 0 [.bool true, g, .bool false] stage.world o := by
  let g : Value := .function 1 ⟨"g", 1, none⟩
  let body : Body := ⟨.arg 0 0, []⟩
  let start : World := worldOf .empty betweenSignature [] body
  let w : World := { start with code := start.code.push (.host ⟨.arg 0 0, []⟩) }
  have hdefines : w.Defines 0 betweenSignature [] true body :=
    (defines_worldOf _ _ _ _).of_grows (start.grows_push _) rfl
  let groups : List (List Value) := [[.placeholder, g], [.placeholder, .bool false], [.bool true]]
  let info : FunctionInfo := ⟨"between", 3, none⟩
  have hfeeds : Feeds [.bool true, g, .bool false] (List.range 3) groups [] :=
    .call (by decide +kernel) (.call (by decide +kernel) (.call (by decide +kernel) (.done _)))
  let first : Application := ⟨betweenSignature, [], body, [none, some g, none], some 1⟩
  let second := first.advance [(.bool false, 2)] (some 2)
  let w₁ : World := w.extend [first] [default]
  let w₂ : World := w₁.extend [second] [default]
  let info₁ : FunctionInfo := ⟨"between", 2, some betweenSignature.format⟩
  let info₂ : FunctionInfo := ⟨"between", 1, some betweenSignature.format⟩
  have hfirst : World.call 1 (.function 0 info) [.placeholder, g] w =
      .done (.function 2 info₁) w₁ := rfl
  have hsecond : World.call 1 (.function 2 info₁) [.placeholder, .bool false] w₁ =
      .done (.function 3 info₂) w₂ := rfl
  have hchain := Chain.goesOn hfirst .refl (.goesOn hsecond .refl (.last [.bool true]))
  obtain ⟨v, w₃, hdone, _⟩ : ∃ v w₃,
      World.call 1 (.function 3 info₂) [.bool true] w₂ = .done v w₃ ∧ true = true :=
    Action.exists_done_of_endsIn (by decide +kernel)
  rcases (Chain.slots_filled hdefines info 0 rfl (by simp) hfeeds).2 _ _ rfl hchain with
    ⟨_, d, stage, _, _, _, _, _, hfailed⟩ | ⟨stage, hstage, _, hruns⟩
  · cases hdone.symm.trans hfailed
  · exact ⟨w, body, info, g, groups, hdefines, rfl, hfeeds, _, _, rfl, hchain, stage, hstage,
      hruns rfl⟩

end DynamicTypes.Application
