import DynamicTypes.Proofs.ArrivalOrder

/-!
# Arguments in groups

Without placeholders arguments fill the slots from the left, however they are grouped, so a
chain of calls is one pass over all arguments with a stop after each group. At a stop nothing
is decided: the partial application is kept as a function, with its slots and with a session
that knows what the arguments have told, and the next call goes on from both.

So a chain of calls ends as the single call with all arguments does, when that call is made
in the world which the chain has led to. That world has the functions and the sessions of the
stops besides, and functions made later have other numbers there. Nothing else is different:
both calls are refused at the first argument that fails its check, with one and the same
diagnostic, or both run the body once, on the same arguments and with the same bindings.
-/

namespace DynamicTypes.Application

/-! ## Groups without placeholders -/

section Values

variable {args : List Value} {k m : Nat}

theorem taken_of_values (hvalues : ∀ x ∈ args, x.isPlaceholder = false) :
    taken (List.range' k (args.length + m)) args = args.zipIdx k := by
  have hzip : args.zip (List.range' k (args.length + m)) = args.zipIdx k := by
    rw [← List.range'_append_1, List.zipIdx_eq_zip_range']
    have happend : (args ++ []).zip (List.range' k args.length ++
        List.range' (k + args.length) m) = _ := List.zip_append (by simp)
    simpa using happend
  rw [taken, hzip]
  refine List.filter_eq_self.2 fun p hp => ?_
  rw [hvalues p.1 (List.fst_mem_of_mem_zipIdx hp)]
  rfl

theorem left_of_values (hvalues : ∀ x ∈ args, x.isPlaceholder = false) :
    left (List.range' k (args.length + m)) args = List.range' (k + args.length) m := by
  refine (List.Pairwise.filter _ List.pairwise_lt_range').eq_of_mem_iff
    List.pairwise_lt_range' fun i => ?_
  change i ∈ left _ args ↔ _
  rw [mem_left, taken_of_values hvalues, List.zipIdx_map_snd, List.mem_range'_1, List.mem_range'_1,
    List.mem_range'_1]
  omega

/-- However arguments are grouped, they arrive in order. -/
theorem arrived_of_values {groups : List (List Value)}
    (hvalues : ∀ x ∈ groups.flatten, x.isPlaceholder = false) :
    arrived (List.range' k groups.flatten.length) groups = groups.flatten.zipIdx k := by
  induction groups generalizing k with
  | nil => rfl
  | cons args groups ih =>
      rw [List.flatten_cons, List.forall_mem_append] at hvalues
      rw [List.flatten_cons, List.length_append, arrived, taken_of_values hvalues.1,
        left_of_values hvalues.1, ih hvalues.2, List.zipIdx_append]

theorem fillsAll_of_values {groups : List (List Value)} (hsome : groups ≠ [])
    (hne : ∀ g ∈ groups, g ≠ [])
    (hvalues : ∀ x ∈ groups.flatten, x.isPlaceholder = false) :
    FillsAll (List.range' k groups.flatten.length) groups := by
  induction groups generalizing k with
  | nil => exact absurd rfl hsome
  | cons args groups ih =>
      rw [List.flatten_cons, List.forall_mem_append] at hvalues
      rw [List.forall_mem_cons] at hne
      rw [List.flatten_cons, List.length_append]
      have hargs : InArity (List.range' k (args.length + groups.flatten.length)) args :=
        ⟨by simp, fun hnil => absurd hnil hne.1⟩
      have hleft := left_of_values (k := k) (m := groups.flatten.length) hvalues.1
      cases groups with
      | nil => exact .last hargs (by simpa using hleft)
      | cons next groups =>
          refine .more hargs ?_ ?_
          · have hnext := List.length_pos_iff.2 (hne.2 next List.mem_cons_self)
            rw [hleft, ne_eq, List.range'_eq_nil_iff, List.flatten_cons, List.length_append]
            omega
          · rw [hleft]
            exact ih (by simp) hne.2 hvalues.2

end Values

/-! ## Chains and single calls -/

section Pass

variable {a : Application} {w : World} {f : Nat} (hcode : w.code[f]? = some (.applied a))

include hcode

/-- A chain without placeholders is one pass over the arguments in their order. -/
theorem callAll_of_values {groups : List (List Value)} (hsome : groups ≠ [])
    (hne : ∀ g ∈ groups, g ≠ []) {xs : List Value} (hgroups : groups.flatten = xs)
    (hvalues : ∀ x ∈ xs, x.isPlaceholder = false)
    (hopen : a.openSlots = List.range' 0 xs.length) (depth : Nat) (info : FunctionInfo) :
    ∃ (made : List Application) (states : List SessionState),
      made.length < groups.length ∧ states.length < groups.length ∧
      World.callAll (depth + 1) groups (.function f info) w =
        a.finish xs.zipIdx (a.learn w.heap xs.zipIdx (a.known w))
          (Body.run (callFunction depth)) (w.extend made states) := by
  subst hgroups
  have hfills := fillsAll_of_values (k := 0) hsome hne hvalues
  rw [← hopen] at hfills
  obtain ⟨made, states, hmade, hstates, _, _, hcalls⟩ := callAll_eq_finish hcode hfills depth info
  rw [hopen, arrived_of_values hvalues] at hcalls
  exact ⟨made, states, hmade, hstates, hcalls⟩

/-- A single call is the chain of one group, which makes nothing on the way. -/
theorem call_of_values {xs : List Value} (hxs : xs ≠ [])
    (hvalues : ∀ x ∈ xs, x.isPlaceholder = false)
    (hopen : a.openSlots = List.range' 0 xs.length) (depth : Nat) (info : FunctionInfo) :
    World.call (depth + 1) (.function f info) xs w =
      a.finish xs.zipIdx (a.learn w.heap xs.zipIdx (a.known w))
        (Body.run (callFunction depth)) w := by
  obtain ⟨made, states, hmade, hstates, hcall⟩ :=
    callAll_of_values hcode (List.cons_ne_nil xs []) (by simpa using hxs) (by simp) hvalues hopen
      depth info
  rw [List.length_singleton, Nat.lt_one_iff, List.length_eq_zero_iff] at hmade hstates
  rw [hmade, hstates, World.extend_nil, World.callAll_singleton] at hcall
  exact hcall

end Pass

/-- Calling a checked function with its arguments in groups ends as calling it with all
of them at once, in a world with the functions and sessions that the chain has made on
the way. Either both calls are refused with one diagnostic, that of the first argument
that fails its check, and the body is not run; or all arguments pass, and each call is
one run of the body, on the same arguments and with the same bindings. -/
theorem callAll_eq_call {signature : Signature} {env : List Ty} {body : Body}
    {w : World} {f : Nat} (hdefines : w.Defines f signature env true body)
    (xs : List Value) (hlen : xs.length = signature.arity) (hpos : 1 ≤ signature.arity)
    (hvalues : ∀ x ∈ xs, x.isPlaceholder = false) (groups : List (List Value))
    (hgroups : groups.flatten = xs) (hne : ∀ g ∈ groups, g ≠ []) (depth : Nat)
    (info : FunctionInfo) :
    ∃ (made : List Application) (states : List SessionState),
      made.length < groups.length ∧ states.length < groups.length ∧
      World.callAll (depth + 1) groups (.function f info) w =
        World.call (depth + 1) (.function f info) xs (w.extend made states) ∧
      ((∃ d, RefusedAtFirst w.heap signature env ∅ xs.zipIdx d ∧
        World.call (depth + 1) (.function f info) xs w = .failed d w ∧
        World.callAll (depth + 1) groups (.function f info) w =
          .failed d (w.extend made states)) ∨
      ∃ b, Runs (Passes w.heap signature env) xs.zipIdx ∅ b ∧
        RunsWith signature env body depth b xs w
          (World.call (depth + 1) (.function f info) xs w) ∧
        RunsWith signature env body depth b xs (w.extend made states)
          (World.callAll (depth + 1) groups (.function f info) w)) := by
  obtain ⟨a, hcode, ha⟩ := hdefines
  have hopen : a.openSlots = List.range' 0 xs.length := by
    rw [ha.openSlots, hlen, List.range_eq_range']
  have hxs : xs ≠ [] := List.ne_nil_of_length_pos (by omega)
  have hsome : groups ≠ [] := by
    rintro rfl
    exact hxs hgroups.symm
  obtain ⟨made, states, hmade, hstates, hcalls⟩ :=
    callAll_of_values hcode hsome hne hgroups hvalues hopen depth info
  refine ⟨made, states, hmade, hstates, ?_, ?_⟩
  · rw [hcalls, call_of_values (World.code_extend hcode) hxs hvalues hopen, World.heap_extend,
      known_extend ha.kept]
  · have hslots : put a.slots xs.zipIdx = xs.map some := by
      rw [ha.slots_eq, ← hlen]
      refine put_replicate ?_ fun p hp => ?_
      · rw [List.zipIdx_map_snd, List.range_eq_range']
      · exact List.mem_zipIdx_iff_getElem?.1 hp
    rw [hcalls, call_of_values hcode hxs hvalues hopen]
    rcases ha.runs_or_refuses hslots w.heap depth with
      ⟨b, hruns, hfinish⟩ | ⟨d, hrefused, hfinish⟩
    · exact .inr ⟨b, hruns, hfinish w, hfinish _⟩
    · exact .inl ⟨d, hrefused, hfinish w, hfinish _⟩

/-- Holds a function of two arguments of one type, which gives the first. -/
def worldOfFirst : World :=
  worldOf .empty (firstOf "a" "a") Builtin.environment ⟨.arg 0 0, []⟩

/-- Given `true` and `false`, together or one after the other, the function is run once.
After `true` the argument `null` fails, and the report on it is the same whether `true`
came with it or before it. -/
theorem callAll_eq_call_first :
    (∃ (b : Bindings) (made : List Application) (states : List SessionState) (v : Value)
      (w' : World),
      World.call 1 (.function 0 ⟨"first", 2, none⟩) [.bool true, .bool false] worldOfFirst =
        .done v w' ∧
      RunsWith (firstOf "a" "a") Builtin.environment ⟨.arg 0 0, []⟩ 0 b [.bool true, .bool false]
        worldOfFirst (World.call 1 (.function 0 ⟨"first", 2, none⟩) [.bool true, .bool false]
          worldOfFirst) ∧
      RunsWith (firstOf "a" "a") Builtin.environment ⟨.arg 0 0, []⟩ 0 b [.bool true, .bool false]
        (worldOfFirst.extend made states) (World.callAll 1 [[.bool true], [.bool false]]
          (.function 0 ⟨"first", 2, none⟩) worldOfFirst)) ∧
    ∃ (d : Diagnostic) (made : List Application) (states : List SessionState),
      World.call 1 (.function 0 ⟨"first", 2, none⟩) [.bool true, .null] worldOfFirst =
        .failed d worldOfFirst ∧
      World.callAll 1 [[.bool true], [.null]] (.function 0 ⟨"first", 2, none⟩) worldOfFirst =
        .failed d (worldOfFirst.extend made states) := by
  have hdefines := defines_worldOf .empty (firstOf "a" "a") Builtin.environment ⟨.arg 0 0, []⟩
  constructor
  · obtain ⟨v, w', hdone, _⟩ : ∃ v w', World.call 1 (.function 0 ⟨"first", 2, none⟩)
        [.bool true, .bool false] worldOfFirst = .done v w' ∧ true = true :=
      Action.exists_done_of_endsIn (by decide +kernel)
    obtain ⟨made, states, _, _, _, ⟨d, _, hfailed, _⟩ | ⟨b, _, hcall, hcalls⟩⟩ :=
      callAll_eq_call hdefines [.bool true, .bool false] rfl (by decide) (by decide)
        [[.bool true], [.bool false]] rfl (by decide) 0 ⟨"first", 2, none⟩
    · cases hdone.symm.trans hfailed
    · exact ⟨b, made, states, v, w', hdone, hcall, hcalls⟩
  · obtain ⟨made, states, _, _, _, ⟨d, _, hcall, hcalls⟩ | ⟨b, ⟨b₁, hfirst, b₂, hsecond, _⟩, _⟩⟩ :=
      callAll_eq_call hdefines [.bool true, .null] rfl (by decide) (by decide)
        [[.bool true], [.null]] rfl (by decide) 0 ⟨"first", 2, none⟩
    · exact ⟨d, made, states, hcall, hcalls⟩
    · have hfails : ((firstOf "a" "a").argumentVerdict .empty Builtin.environment 1 .null
          ((firstOf "a" "a").argumentVerdict .empty Builtin.environment 0 (.bool true) ∅).bindings
          ).failure?.isNone = false := by decide +kernel
      rw [← hfirst.2] at hsecond
      have hpasses := hsecond.1
      change ((firstOf "a" "a").argumentVerdict .empty Builtin.environment 1 .null
        ((firstOf "a" "a").argumentVerdict .empty Builtin.environment 0 (.bool true) ∅).bindings
        ).failure? = none at hpasses
      rw [hpasses] at hfails
      cases hfails

end DynamicTypes.Application
