import DynamicTypes.Proofs.ArrivalOrder
import DynamicTypes.Proofs.ConcreteChecks
import DynamicTypes.Proofs.Execution

/-!
# What a checked function lets through

A function with checks stands between its caller and its body. Arguments come in one call
after the other, in any grouping and with placeholders, and much may happen between two
calls: what an argument holds may have changed by the time the body runs. What counts is
the heap in which it arrives.

The slots that arguments go to follow from the numbers of arguments and placeholders, so
`arrivals` lists them before anything is checked. For a signature without variables the
list decides: the body is run if every argument on it belongs to the type of its slot, and
otherwise the chain of calls stops at the first one that does not. On the way back the
result is held to its type in the same way.
-/

namespace DynamicTypes.Application

/-! ## Chains of calls -/

/-- One call of a chain: the world in which it takes place, and its arguments. -/
structure Stage where
  world : World
  args : List Value

/-- The outcome of calling a function with the arguments of the first stage, what it
returns with those of the next, and so on, until a call fails or none is left. Whatever
is done between two calls is left open. -/
inductive Chain (depth : Nat) :
    World → Value → List Stage → Outcome Diagnostic Value → Prop where
  | last {w : World} {f : Value} (args : List Value) :
      Chain depth w f [⟨w, args⟩] (World.call (depth + 1) f args w)
  | stops {w w' : World} {f : Value} {args : List Value} {d : Diagnostic} (rest : List Stage)
      (failed : World.call (depth + 1) f args w = .failed d w') :
      Chain depth w f (⟨w, args⟩ :: rest) (.failed d w')
  | goesOn {w w₁ w₂ : World} {f g : Value} {args : List Value} {rest : List Stage}
      {o : Outcome Diagnostic Value} (done : World.call (depth + 1) f args w = .done g w₁)
      (between : World.Later (.since 0) w₁ w₂) (next : Chain depth w₂ g rest o) :
      Chain depth w f (⟨w, args⟩ :: rest) o

/-- An argument, the heap in which it arrives, and the slot that it goes to. -/
structure Arrival where
  heap : Heap
  value : Value
  slot : Nat

/-- The arguments of one call as they arrive. -/
def arriving (h : Heap) (ps : List (Value × Nat)) : List Arrival :=
  ps.map fun p => ⟨h, p.1, p.2⟩

/-- The arguments of a chain in the order of their arrival. -/
def arrivals : List Nat → List Stage → List Arrival
  | _, [] => []
  | slots, stage :: rest =>
    arriving stage.world.heap (taken slots stage.args) ++
      arrivals (left slots stage.args) rest

/-- Whether an argument belongs to the type of its slot when it arrives. -/
def Arrival.Belongs (p : Arrival) (s : Signature) : Prop :=
  ∃ t, s.params[p.slot]? = some t ∧ t.isMember p.heap p.value = true

/-- Whether a diagnostic rejects the first of the arguments that does not belong to the
type of its slot. -/
def RejectsFirst (s : Signature) (env : List Ty) (arrived : List Arrival)
    (d : Diagnostic) : Prop :=
  ∃ front p back t, arrived = front ++ p :: back ∧ (∀ q ∈ front, q.Belongs s) ∧
    s.params[p.slot]? = some t ∧ t.isMember p.heap p.value = false ∧
    d.Rejects p.heap env t p.value (.root p.slot)

/-! ## Arguments that arrive with one call -/

section Arrivals

variable {s : Signature} {env : List Ty} {arrived later : List Arrival} {d : Diagnostic}

theorem RejectsFirst.append (hd : RejectsFirst s env arrived d) (later : List Arrival) :
    RejectsFirst s env (arrived ++ later) d := by
  obtain ⟨front, p, back, t, rfl, hfront, hp⟩ := hd
  exact ⟨front, p, back ++ later, t, by simp, hfront, hp⟩

theorem RejectsFirst.after (hall : ∀ p ∈ arrived, p.Belongs s)
    (hd : RejectsFirst s env later d) :
    RejectsFirst s env (arrived ++ later) d := by
  obtain ⟨front, p, back, t, rfl, hfront, hp⟩ := hd
  refine ⟨arrived ++ front, p, back, t, by simp, fun q hq => ?_, hp⟩
  rcases List.mem_append.1 hq with hq | hq
  · exact hall q hq
  · exact hfront q hq

end Arrivals

/-- Arguments pass if they belong to the types of their slots; if not, the first that
does not is rejected. -/
theorem checkAll_concrete {signature : Signature}
    (hvars : ∀ t ∈ signature.params, t.vars = []) (h : Heap) (env : List Ty)
    {ps : List (Value × Nat)} (hps : ∀ p ∈ ps, p.2 < signature.arity)
    (state : SessionState) :
    (∀ p ∈ arriving h ps, p.Belongs signature) ∧
      (∃ state', signature.checkAll h env ps state = .ok state') ∨
    ∃ d, signature.checkAll h env ps state = .error d ∧
      RejectsFirst signature env (arriving h ps) d := by
  induction ps generalizing state with
  | nil => exact .inl ⟨List.forall_mem_nil _, state, rfl⟩
  | cons p ps ih =>
      obtain ⟨v, i⟩ := p
      rw [List.forall_mem_cons] at hps
      obtain ⟨t, ht⟩ : ∃ t, signature.params[i]? = some t := ⟨_, List.getElem?_eq_getElem hps.1⟩
      have hverdict : signature.argumentVerdict h env i v state.bindings =
          Scope.satisfy ⟨h, env, signature.constraints⟩ t (.root i) [v] state.bindings := by
        rw [Signature.argumentVerdict, ht]
      rw [Signature.checkAll, hverdict]
      rcases Scope.satisfy_concrete (s := ⟨h, env, signature.constraints⟩)
        (hvars t (List.mem_of_getElem? ht)) (.root i) v state.bindings with
        ⟨hv, hpassed⟩ | ⟨hv, f, hf, hrejects⟩
      · rw [hpassed.1]
        have hfirst : ∀ p ∈ arriving h [(v, i)], p.Belongs signature := by
          simpa [arriving] using ⟨t, ht, hv⟩
        rcases ih hps.2 (state.record
          (Scope.satisfy ⟨h, env, signature.constraints⟩ t (.root i) [v] state.bindings)) with
          ⟨hall, hok⟩ | ⟨d, herror, hd⟩
        · exact .inl ⟨List.forall_mem_cons.2 ⟨hfirst _ List.mem_cons_self, hall⟩, hok⟩
        · exact .inr ⟨d, herror, .after hfirst hd⟩
      · rw [hf]
        exact .inr ⟨_, rfl, [], ⟨h, v, i⟩, _, t, rfl, List.forall_mem_nil _, ht, hv,
          hrejects signature⟩

section Calls

variable {a : Application} (hchecked : a.state?.isSome = true)
  (hvars : ∀ t ∈ a.signature.params, t.vars = [])
  (hslots : ∀ i ∈ a.openSlots, i < a.signature.arity) {w : World} {f : Nat}
  (hcode : w.code[f]? = some (.applied a)) {args : List Value}
  (hargs : InArity a.openSlots args) (depth : Nat) (info : FunctionInfo)

include hchecked hvars hslots

theorem learn_concrete (args : List Value) (w : World) :
    (∀ p ∈ arriving w.heap (a.placed args), p.Belongs a.signature) ∧
      (∃ state, a.learn w.heap (a.placed args) (a.known w) = .ok (some state)) ∨
    ∃ d, a.learn w.heap (a.placed args) (a.known w) = .error d ∧
      RejectsFirst a.signature a.env (arriving w.heap (a.placed args)) d := by
  obtain ⟨i, hi⟩ := Option.isSome_iff_exists.1 hchecked
  have hplaced : ∀ p ∈ a.placed args, p.2 < a.signature.arity :=
    fun p hp => hslots p.2 (mem_openSlots.2 (mem_placed hp))
  rw [known, hi, Option.map_some, learn]
  rcases checkAll_concrete hvars w.heap a.env hplaced (w.session i) with
    ⟨hall, state, hok⟩ | ⟨d, herror, hd⟩
  · exact .inl ⟨hall, state, congrArg (Except.map some) hok⟩
  · exact .inr ⟨d, congrArg (Except.map some) herror, hd⟩

include hcode hargs

theorem call_last (hfull : left a.openSlots args = []) :
    (∀ p ∈ arriving w.heap (a.placed args), p.Belongs a.signature) ∧
      (∃ state, World.call (depth + 1) (.function f info) args w =
        a.finish (a.placed args) (.ok (some state)) (Body.run (callFunction depth)) w) ∨
    ∃ d, World.call (depth + 1) (.function f info) args w = .failed d w ∧
      RejectsFirst a.signature a.env (arriving w.heap (a.placed args)) d := by
  rw [call_applied hcode]
  rcases learn_concrete hchecked hvars hslots args w with ⟨hall, state, hlearn⟩ | ⟨d, hlearn, hd⟩
  · exact .inl ⟨hall, state, apply_of_full hargs hlearn _ hfull⟩
  · exact .inr ⟨d, apply_of_refuses hargs hlearn _, hd⟩

theorem call_more (hopen : left a.openSlots args ≠ []) :
    (∀ p ∈ arriving w.heap (a.placed args), p.Belongs a.signature) ∧
      (∃ info' state, World.call (depth + 1) (.function f info) args w =
        .done (.function w.code.size info')
          (w.extend [a.advance (a.placed args) (some w.sessions.size)] [state])) ∨
    ∃ d, World.call (depth + 1) (.function f info) args w = .failed d w ∧
      RejectsFirst a.signature a.env (arriving w.heap (a.placed args)) d := by
  rw [call_applied hcode]
  rcases learn_concrete hchecked hvars hslots args w with ⟨hall, state, hlearn⟩ | ⟨d, hlearn, hd⟩
  · exact .inl ⟨hall, _, state, apply_of_open hargs hlearn _ hopen⟩
  · exact .inr ⟨d, apply_of_refuses hargs hlearn _, hd⟩

end Calls

/-! ## Chains -/

/-- The arguments go to the same slots in whichever heap they arrive. -/
theorem map_arrivals (slots : List Nat) (stages : List Stage) :
    (arrivals slots stages).map (fun p => (p.value, p.slot)) =
      arrived slots (stages.map (·.args)) := by
  induction stages generalizing slots with
  | nil => rfl
  | cons stage rest ih =>
      rw [arrivals, arriving, List.map_append, List.map_map, ih, List.map_cons, arrived]
      exact congrArg (· ++ _) (List.map_id _)

/-- The arguments of a chain fill all slots of the function and belong to their types,
and the chain ends in the run of the body, or it stops at the first that does not. -/
theorem Chain.runs_or_stops {depth : Nat} {w : World} {g : Value} {stages : List Stage}
    {o : Outcome Diagnostic Value} (hchain : Chain depth w g stages o) {a : Application}
    {f : Nat} {info : FunctionInfo} (hg : g = .function f info)
    (hcode : w.code[f]? = some (.applied a)) (hchecked : a.state?.isSome = true)
    (hvars : ∀ t ∈ a.signature.params, t.vars = [])
    (hslots : ∀ i ∈ a.openSlots, i < a.signature.arity)
    (hfills : FillsAll a.openSlots (stages.map (·.args))) :
    ((∀ p ∈ arrivals a.openSlots stages, p.Belongs a.signature) ∧
      ∃ stage ∈ stages.getLast?, ∃ state,
        o = a.finish (arrived a.openSlots (stages.map (·.args))) (.ok (some state))
          (Body.run (callFunction depth)) stage.world) ∨
    ∃ d, ∃ stage ∈ stages, o = .failed d stage.world ∧
      RejectsFirst a.signature a.env (arrivals a.openSlots stages) d := by
  induction hchain generalizing a f info with
  | @last w g args =>
      subst hg
      cases hfills with
      | more _ _ rest => cases rest
      | last inArity full =>
          rcases call_last hchecked hvars hslots hcode inArity depth info full with
            ⟨hall, state, hcall⟩ | ⟨d, hcall, hd⟩
          · rw [arrivals, arrivals, List.append_nil, List.map_cons, List.map_nil, arrived, arrived,
              List.append_nil]
            exact .inl ⟨hall, ⟨w, args⟩, rfl, state, hcall⟩
          · exact .inr ⟨d, ⟨w, args⟩, by simp, hcall, hd.append _⟩
  | @stops w w' g args d rest failed =>
      subst hg
      rw [List.map_cons] at hfills ⊢
      generalize hgroups : rest.map (·.args) = groups at hfills ⊢
      cases hfills with
      | last inArity full =>
          obtain rfl := List.map_eq_nil_iff.1 hgroups
          rcases call_last hchecked hvars hslots hcode inArity depth info full with
            ⟨hall, state, hcall⟩ | ⟨d', hcall, hd⟩
          · rw [arrivals, arrivals, List.append_nil, arrived, arrived, List.append_nil, ← failed]
            exact .inl ⟨hall, ⟨w, args⟩, rfl, state, hcall⟩
          · cases failed.symm.trans hcall
            exact .inr ⟨d, ⟨w, args⟩, by simp, rfl, hd.append _⟩
      | more inArity open_ _ =>
          rcases call_more hchecked hvars hslots hcode inArity depth info open_ with
            ⟨_, info', state, hcall⟩ | ⟨d', hcall, hd⟩
          · cases failed.symm.trans hcall
          · cases failed.symm.trans hcall
            exact .inr ⟨d, ⟨w, args⟩, by simp, rfl, hd.append _⟩
  | @goesOn w w₁ w₂ g g' args rest o done between next ih =>
      subst hg
      rw [List.map_cons] at hfills ⊢
      generalize hgroups : rest.map (·.args) = groups at hfills ⊢
      cases hfills with
      | last inArity full =>
          obtain rfl := List.map_eq_nil_iff.1 hgroups
          cases next
      | more inArity open_ hrest =>
          rcases call_more hchecked hvars hslots hcode inArity depth info open_ with
            ⟨hall, info', state, hcall⟩ | ⟨d', hcall, hd⟩
          · cases done.symm.trans hcall
            let a' := a.advance (a.placed args) (some w.sessions.size)
            have hopen' : a'.openSlots = left a.openSlots args := openSlots_advance a args _
            have hcode' : w₂.code[w.code.size]? = some (.applied a') :=
              (between.run (Nat.zero_le _)).code (by simp [a', World.extend])
            have hslots' : ∀ i ∈ a'.openSlots, i < a'.signature.arity := by
              rw [hopen']
              exact fun i hi => hslots i ((left_sublist _ _).subset hi)
            have hfills' : FillsAll a'.openSlots (rest.map (·.args)) := by
              rw [hopen', hgroups]
              exact hrest
            have hnext := ih rfl hcode' rfl hvars hslots' hfills'
            rw [hopen', hgroups] at hnext
            rcases hnext with ⟨hrest, stage, hstage, state', ho⟩ | ⟨d, stage, hstage, ho, hd⟩
            · refine .inl ⟨fun p hp => ?_, stage, ?_, state', ?_⟩
              · rcases List.mem_append.1 hp with hp | hp
                · exact hall p hp
                · exact hrest p hp
              · rw [List.getLast?_cons, Option.mem_def.1 hstage]
                rfl
              · rw [ho, finish_advance]
                rfl
            · exact .inr ⟨d, stage, List.mem_cons_of_mem _ hstage, ho, .after hall hd⟩
          · cases done.symm.trans hcall

/-! ## The body and its result -/

/-- Whether an outcome is that of the body, run in a world on what is handed over for
the arguments. What the body gives is handed back if it belongs to the type of the
result, and rejected if it does not. -/
def Invokes (signature : Signature) (env : List Ty) (body : Body) (depth : Nat)
    (xs : List Value) (w : World) (o : Outcome Diagnostic Value) : Prop :=
  ∃ (s : Session) (args : List Value) (w₁ : World),
    s.signature = signature ∧ w.Grows w₁ ∧ s.HandsAll w₁ signature.params .root xs args ∧
    o = (body.run (callFunction depth) args >>= s.checkResult) w₁ ∧
    ∀ r w₂, body.run (callFunction depth) args w₁ = .done r w₂ →
      (signature.result.isMember w₂.heap r = true ∧ ∃ r' w₃, o = .done r' w₃ ∧ w₂.Grows w₃ ∧
        s.Hands w₃ signature.result (.root signature.arity) r r') ∨
      (signature.result.isMember w₂.heap r = false ∧ ∃ d w₃, o = .failed d w₃ ∧
        d.Rejects w₂.heap env signature.result r (.root signature.arity))

theorem RunsWith.invokes {signature : Signature} (hresult : signature.result.vars = [])
    {env : List Ty} {body : Body} {depth : Nat} {b : Bindings} {xs : List Value}
    {w : World} {o : Outcome Diagnostic Value}
    (hruns : RunsWith signature env body depth b xs w o) :
    Invokes signature env body depth xs w o := by
  obtain ⟨s, args, w₁, rfl, rfl, _, hgrows, _, hhands, rfl⟩ := hruns
  refine ⟨s, args, w₁, rfl, hgrows, hhands, rfl, fun r w₂ hdone => ?_⟩
  rw [Action.bind_of_done hdone]
  exact s.handsBack hresult (.root s.signature.arity) r w₂

/-- A function that is checked against types without variables, called with arguments
that fill its slots, in any grouping, with placeholders, and whatever happens between
the calls. If every argument belongs to the type of its slot in the heap in which it
arrives, then the body is run, on what is handed over for the arguments in their slots,
and a result comes back exactly if it belongs to its type. If not, then the body is not
run: the call with the first argument that does not belong fails and leaves the world as
it was, and its diagnostic points into the type of the slot. -/
theorem Chain.invokes_or_rejects {signature : Signature} {env : List Ty} {body : Body}
    (hvars : ∀ t ∈ signature.types, t.vars = []) {w : World} {f : Nat}
    (hdefines : w.Defines f signature env true body) {info : FunctionInfo} {depth : Nat}
    {stages : List Stage} {o : Outcome Diagnostic Value}
    (hchain : Chain depth w (.function f info) stages o)
    (hfills : FillsAll (List.range signature.arity) (stages.map (·.args))) :
    ((∀ p ∈ arrivals (List.range signature.arity) stages, p.Belongs signature) ∧
      ∃ xs, xs.length = signature.arity ∧
        (∀ i v, xs[i]? = some v ↔
          ∃ p ∈ arrivals (List.range signature.arity) stages, p.slot = i ∧ p.value = v) ∧
        ∃ stage ∈ stages.getLast?, Invokes signature env body depth xs stage.world o) ∨
    ∃ d, ∃ stage ∈ stages, o = .failed d stage.world ∧
      RejectsFirst signature env (arrivals (List.range signature.arity) stages) d := by
  obtain ⟨a, hcode, ha⟩ := hdefines
  have hopen := ha.openSlots
  obtain ⟨rfl, rfl, rfl, hslots, hchecked, -, -⟩ := ha
  have hrun := hchain.runs_or_stops rfl hcode hchecked
    (fun t ht => hvars t (List.mem_append_left _ ht))
    (by rw [hopen]; exact fun i => List.mem_range.1) (hopen ▸ hfills)
  rw [hopen] at hrun
  rcases hrun with ⟨hall, stage, hstage, state, ho⟩ | hstops
  · obtain ⟨xs, hsupply⟩ := hfills.exists_supplies
    refine .inl ⟨hall, xs, hsupply.length_eq, fun i v => ?_, stage, hstage, ?_⟩
    · rw [← hsupply.mem_arrived, ← map_arrivals, List.mem_map]
      simp only [Prod.mk.injEq, and_comm]
    · rw [ho]
      have hruns := runsWith_finish (hslots ▸ hsupply.put_slots) state depth stage.world
      exact hruns.invokes (hvars _ (by simp [Signature.types]))
  · exact .inr hstops

/-- Takes a boolean and an array of booleans, and gives the first. -/
def pickSignature : Signature :=
  ⟨"pick", ∅, [Builtin.boolean, Builtin.array Builtin.boolean], Builtin.boolean, by decide⟩

/-- The array comes first and is then spoilt before the boolean comes. The body is run
all the same, since the array was one of booleans when it came. -/
theorem Chain.invokes_or_rejects_spoilt :
    ∃ (w w' : World) (body : Body) (info : FunctionInfo) (stages : List Stage)
      (o : Outcome Diagnostic Value),
      (∀ t ∈ pickSignature.types, t.vars = []) ∧ w.Defines 0 pickSignature [] true body ∧
      stages = [⟨w, [.placeholder, .array 0]⟩, ⟨w', [.bool true]⟩] ∧
      Chain 0 w (.function 0 info) stages o ∧
      FillsAll (List.range pickSignature.arity) (stages.map (·.args)) ∧
      (Builtin.array Builtin.boolean).isMember w'.heap (.array 0) = false ∧
      ∃ xs, xs.length = 2 ∧ Invokes pickSignature [] body 0 xs w' o := by
  let body : Body := ⟨.arg 0 0, []⟩
  let half : Application := ⟨pickSignature, [], body, [none, some (.array 0)], some 1⟩
  let w : World := worldOf ⟨#[[.bool true]], #[]⟩ pickSignature [] body
  let w₁ : World := w.extend [half] [default]
  let w' : World := { w₁ with heap := ⟨#[[.bool true, .null]], #[]⟩ }
  let info : FunctionInfo := ⟨"pick", 2, none⟩
  let rest : FunctionInfo := ⟨"pick", 1, some pickSignature.format⟩
  let stages : List Stage := [⟨w, [.placeholder, .array 0]⟩, ⟨w', [.bool true]⟩]
  have hfills : FillsAll (List.range pickSignature.arity) (stages.map (·.args)) :=
    .more ⟨by decide, by simp⟩ (by decide) (.last ⟨by decide, by simp⟩ (by decide))
  have hvars : ∀ t ∈ pickSignature.types, t.vars = [] := by decide +kernel
  have hfirst : World.call 1 (.function 0 info) [.placeholder, .array 0] w =
      .done (.function 1 rest) w₁ := rfl
  have hchain : Chain 0 w (.function 0 info) stages
      (World.call 1 (.function 1 rest) [.bool true] w') :=
    .goesOn hfirst (.single (.halfway (.mutate _ _))) (.last _)
  obtain ⟨v, w₂, hdone, _⟩ : ∃ v w₂, World.call 1 (.function 1 rest) [.bool true] w' = .done v w₂ ∧
      true = true := Action.exists_done_of_endsIn (by decide +kernel)
  have hdefines := defines_worldOf ⟨#[[.bool true]], #[]⟩ pickSignature [] body
  rcases hchain.invokes_or_rejects hvars hdefines hfills with
    ⟨_, xs, hlength, _, stage, hstage, hinvokes⟩ | ⟨d, stage, _, hfailed, _⟩
  · cases hstage
    exact ⟨w, w', body, info, stages, _, hvars, hdefines, rfl, hchain, hfills,
      by decide +kernel, xs, hlength, hinvokes⟩
  · cases hdone.symm.trans hfailed

end DynamicTypes.Application
