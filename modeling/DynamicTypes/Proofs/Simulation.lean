import DynamicTypes.Proofs.PartialApplication
import DynamicTypes.Proofs.References

/-!
# Worlds that code cannot tell apart

Sessions that nothing refers to make no difference to the code that is run, nor does it
matter what the functions do that nothing names. But later sessions are numbered after
them, and a number ends up in every callback and in every partial application that is made,
so the two worlds do not stay the same. `Alike` is what stays: the same heap and labels, the
same functions at the same numbers except where they refer to sessions, and the same
sessions with some more in between.

Everything that code can do keeps worlds alike, and ends with the same result or the same
failure in both. The one condition is that code does not name the functions in which the
worlds may differ, and it never comes to name them: it names what it has been given, what
it finds in the world, and what it makes.
-/

namespace DynamicTypes

/-! ## Worlds alike -/

/-- Additional sessions: the number of the first, and how many there are. -/
structure Gap where
  first : Nat
  size : Nat

/-- Whether a session is one of the additional ones. -/
def Gap.Has (m : Gap) (k : Nat) : Prop := m.first ≤ k ∧ k < m.first + m.size

/-- The number of a session where there are additional ones. -/
def skip (m : Gap) (k : Nat) : Nat := if k < m.first then k else k + m.size

def Session.shift (m : Gap) (s : Session) : Session :=
  { s with state := skip m s.state }

def Contract.shift (m : Gap) (c : Contract) : Contract :=
  { c with session := c.session.shift m }

def Application.shift (m : Gap) (a : Application) : Application :=
  { a with state? := a.state?.map (skip m) }

def Code.shift (m : Gap) : Code → Code
  | .guarded c => .guarded (c.shift m)
  | .applied a => .applied (a.shift m)
  | .host body => .host body

/-- Whether a world is like another one, with additional sessions, as far as can be told
through the functions that may be named. -/
structure World.Alike (ok : Nat → Prop) (m : Gap) (u w : World) : Prop where
  heap : u.heap = w.heap
  labels : u.labels = w.labels
  size_code : u.code.size = w.code.size
  code : ∀ {f : Nat}, ok f → u.code[f]? = w.code[f]?.map (Code.shift m)
  new : ∀ {f : Nat}, w.code.size ≤ f → ok f
  le_size : m.first ≤ w.sessions.size
  size_sessions : u.sessions.size = w.sessions.size + m.size
  sessions : ∀ k, u.sessions[skip m k]? = w.sessions[k]?
  tidy : w.Tidy ok

section Skip

variable {m : Gap} {j k n : Nat}

theorem skip_inj : skip m j = skip m k ↔ j = k := by
  unfold skip
  split <;> split <;> omega

theorem ne_skip (hk : m.Has k) : k ≠ skip m j := by
  obtain ⟨_, _⟩ := hk
  unfold skip
  split <;> omega

theorem skip_lt_iff (hm : m.first ≤ n) : skip m k < n + m.size ↔ k < n := by
  unfold skip
  split <;> omega

theorem skip_of_lt (hm : k < m.first) : skip m k = k := if_pos hm

theorem skip_of_le (hm : m.first ≤ k) :
    skip m k = k + m.size :=
  if_neg (Nat.not_lt.2 hm)

end Skip

namespace World.Alike

variable {ok : Nat → Prop} {m : Gap} {u w : World}

/-! ## Changes that keep worlds alike -/

theorem mutate (h : Alike ok m u w) {heap heap' : Heap}
    {labels labels' : SortedMap String Value} (hheap : heap' = heap)
    (hlabels : labels' = labels)
    (harrays : ∀ items ∈ heap.arrays, ∀ v ∈ items, v.Within ok)
    (hobjects : ∀ o ∈ heap.objects, ∀ p ∈ o.fields.entries, p.2.Within ok)
    (hlabelled : ∀ p ∈ labels.entries, p.2.Within ok) :
    Alike ok m { u with heap := heap', labels := labels' } { w with heap, labels } :=
  { h with
    heap := hheap
    labels := hlabels
    tidy := ⟨harrays, hobjects, hlabelled, h.tidy.code⟩ }

theorem newArray (h : Alike ok m u w) {items : List Value}
    (hitems : ∀ v ∈ items, v.Within ok) :
    Alike ok m (u.newArray items).2 (w.newArray items).2 := by
  refine h.mutate (by rw [h.heap]) h.labels (fun items' hmem => ?_) h.tidy.objects h.tidy.labels
  rcases Array.mem_push.1 hmem with hmem | rfl
  · exact h.tidy.arrays _ hmem
  · exact hitems

theorem newObject (h : Alike ok m u w) {o : Obj}
    (ho : ∀ p ∈ o.fields.entries, p.2.Within ok) :
    Alike ok m (u.newObject o).2 (w.newObject o).2 := by
  refine h.mutate (by rw [h.heap]) h.labels h.tidy.arrays (fun o' hmem => ?_) h.tidy.labels
  rcases Array.mem_push.1 hmem with hmem | rfl
  · exact h.tidy.objects _ hmem
  · exact ho

theorem push (h : Alike ok m u w) (target : Value) {v : Value} (hv : v.Within ok) :
    Alike ok m (u.push target v) (w.push target v) := by
  cases target with
  | array a =>
      refine h.mutate (by rw [h.heap]) h.labels (fun items hmem x hx => ?_) h.tidy.objects
        h.tidy.labels
      rcases Array.mem_or_eq_of_mem_setIfInBounds hmem with hmem | rfl
      · exact h.tidy.arrays _ hmem x hx
      · rcases List.mem_append.1 hx with hx | hx
        · exact h.tidy.items (.array a) x hx
        · rw [List.mem_singleton.1 hx]
          exact hv
  | _ => exact h

theorem setField (h : Alike ok m u w) (target : Value) (key : String) {v : Value}
    (hv : v.Within ok) :
    Alike ok m (u.setField target key v) (w.setField target key v) := by
  cases target with
  | object o =>
      refine h.mutate (by rw [h.heap]) h.labels h.tidy.arrays (fun o' hmem p hp => ?_) h.tidy.labels
      rcases Array.mem_or_eq_of_mem_setIfInBounds hmem with hmem | rfl
      · exact h.tidy.objects _ hmem p hp
      · rcases SortedMap.mem_insertEntry hp with rfl | hp
        · exact hv
        · exact h.tidy.fields o p hp
  | _ => exact h

theorem label (h : Alike ok m u w) (name : String) {v : Value} (hv : v.Within ok) :
    Alike ok m (u.label name v) (w.label name v) := by
  refine h.mutate h.heap (by rw [h.labels]) h.tidy.arrays h.tidy.objects fun p hp => ?_
  rcases SortedMap.mem_insertEntry hp with rfl | hp
  · exact hv
  · exact h.tidy.labels p hp

/-- A new function may be named. -/
theorem within_new (h : Alike ok m u w) {info : FunctionInfo} :
    (Value.function w.code.size info).Within ok := by
  intro f hf
  rw [List.mem_singleton.1 hf]
  exact h.new (Nat.le_refl _)

theorem define (h : Alike ok m u w) {code : Code} (hcode : code.Within ok) :
    Alike ok m { u with code := u.code.push (code.shift m) }
      { w with code := w.code.push code } :=
  { h with
    size_code := by simp [h.size_code]
    code {f} hf := by
      simp only [Array.getElem?_push, h.size_code]
      split
      · rfl
      · exact h.code hf
    new {f} hf := h.new (Nat.le_trans (by simp) hf)
    tidy := by
      refine ⟨h.tidy.arrays, h.tidy.objects, h.tidy.labels, fun {f code'} hf hcode' => ?_⟩
      simp only [Array.getElem?_push] at hcode'
      split at hcode'
      · cases hcode'
        exact hcode
      · exact h.tidy.code hf hcode' }

/-- A new session gets the number that the one in the other world has where there are
more. -/
theorem skip_size (h : Alike ok m u w) : skip m w.sessions.size = u.sessions.size := by
  rw [skip_of_le h.le_size, h.size_sessions]

theorem begin (h : Alike ok m u w) (state : SessionState) :
    Alike ok m { u with sessions := u.sessions.push state }
      { w with sessions := w.sessions.push state } :=
  { h with
    le_size := Nat.le_trans h.le_size (by simp)
    size_sessions := by
      simp only [Array.size_push, h.size_sessions]
      omega
    sessions k := by
      rw [Array.getElem?_push, Array.getElem?_push, ← h.skip_size, h.sessions]
      simp only [skip_inj]
    tidy := ⟨h.tidy.arrays, h.tidy.objects, h.tidy.labels, h.tidy.code⟩ }

/-- Some of the calls of a function open a session. -/
theorem beginSome (h : Alike ok m u w) (state? : Option SessionState) :
    Alike ok m (u.extend [] state?.toList) (w.extend [] state?.toList) := by
  cases state? with
  | none => simpa using h
  | some state => simpa [World.extend] using h.begin state

theorem shift_new (h : Alike ok m u w) (a : Application)
    (state? : Option SessionState) :
    Application.shift m { a with state? := state?.map fun _ => w.sessions.size } =
      { a with state? := state?.map fun _ => u.sessions.size } := by
  rw [Application.shift, ← h.skip_size, Option.map_map]
  rfl

/-- A new application has a new session. -/
theorem keep (h : Alike ok m u w) {a : Application} (ha : a.Within ok)
    (state? : Option SessionState) :
    Alike ok m
      (u.extend [{ a with state? := state?.map fun _ => u.sessions.size }] state?.toList)
      (w.extend [{ a with state? := state?.map fun _ => w.sessions.size }] state?.toList) := by
  let b : Application := { a with state? := state?.map fun _ => w.sessions.size }
  have hb : (Code.applied b).Within ok := ha
  have hdefine := (h.beginSome state?).define hb
  rw [Code.shift, h.shift_new] at hdefine
  simpa [World.extend] using hdefine

theorem session (h : Alike ok m u w) (k : Nat) :
    u.session (skip m k) = w.session k := by
  rw [World.session, World.session, h.sessions]

theorem setSession (h : Alike ok m u w) (k : Nat) (state : SessionState) :
    Alike ok m (u.setSession (skip m k) state) (w.setSession k state) :=
  { h with
    le_size := Nat.le_trans h.le_size (by simp [World.setSession])
    size_sessions := by simp [World.setSession, h.size_sessions]
    sessions j := by
      simp only [World.setSession, Array.getElem?_setIfInBounds, h.size_sessions, h.sessions,
        skip_inj, skip_lt_iff h.le_size]
    tidy := ⟨h.tidy.arrays, h.tidy.objects, h.tidy.labels, h.tidy.code⟩ }

/-- What an additional session knows makes no difference. -/
theorem setSession_left (h : Alike ok m u w) {k : Nat} (hk : m.Has k)
    (state : SessionState) :
    Alike ok m (u.setSession k state) w :=
  { h with
    size_sessions := by simp [World.setSession, h.size_sessions]
    sessions j := by
      rw [World.setSession, Array.getElem?_setIfInBounds_ne (ne_skip hk), h.sessions] }

end World.Alike

/-! ## Actions alike -/

/-- Whether two outcomes are the same, in worlds alike. -/
inductive Outcome.Alike {ε α : Type} (ok : Nat → Prop) (m : Gap) (P : α → Prop) :
    Outcome ε α → Outcome ε α → Prop where
  | done {a : α} {u w : World} (result : P a) (worlds : World.Alike ok m u w) :
      Alike ok m P (.done a u) (.done a w)
  | failed {e : ε} {u w : World} (worlds : World.Alike ok m u w) :
      Alike ok m P (.failed e u) (.failed e w)
  | exhausted : Alike ok m P .exhausted .exhausted

namespace Action

variable {ε δ α β : Type} {ok : Nat → Prop} {m : Gap} {P : α → Prop} {Q : β → Prop}

/-- Whether two actions end in the same way in worlds alike, and results satisfy a
condition. -/
def Alike (ok : Nat → Prop) (m : Gap) (P : α → Prop) (x y : Action ε α) : Prop :=
  ∀ u w : World, World.Alike ok m u w → (x u).Alike ok m P (y w)

/-- Whether an action ends in the same way in worlds alike. -/
abbrev Steady (ok : Nat → Prop) (m : Gap) (P : α → Prop) (x : Action ε α) :
    Prop :=
  Alike ok m P x x

namespace Alike

theorem pure {a : α} (ha : P a) : Steady ok m P (Pure.pure a : Action ε α) :=
  fun _ _ h => .done ha h

theorem fail (e : ε) : Steady ok m P (Action.fail e : Action ε α) :=
  fun _ _ h => .failed h

theorem look {f : World → α} (hf : ∀ u w, World.Alike ok m u w → f u = f w ∧ P (f w)) :
    Steady ok m P (Action.look f : Action ε α) := by
  intro u w h
  obtain ⟨hsame, hresult⟩ := hf u w h
  change Outcome.Alike ok m P (.done (f u) u) (.done (f w) w)
  rw [hsame]
  exact .done hresult h

theorem change {f : World → World}
    (hf : ∀ u w, World.Alike ok m u w → World.Alike ok m (f u) (f w)) :
    Steady ok m (fun _ => True) (Action.change f : Action ε Unit) :=
  fun _ _ h => .done trivial (hf _ _ h)

theorem make {f g : World → α × World}
    (hf : ∀ u w, World.Alike ok m u w →
      (f u).1 = (g w).1 ∧ P (g w).1 ∧ World.Alike ok m (f u).2 (g w).2) :
    Alike ok m P (Action.make f : Action ε α) (Action.make g) := by
  intro u w h
  obtain ⟨hsame, hresult, hworlds⟩ := hf u w h
  change Outcome.Alike ok m P (.done (f u).1 (f u).2) (.done (g w).1 (g w).2)
  rw [hsame]
  exact .done hresult hworlds

theorem bind {x y : Action ε α} {f g : α → Action ε β} (hx : Alike ok m P x y)
    (hf : ∀ a, P a → Alike ok m Q (f a) (g a)) : Alike ok m Q (x >>= f) (y >>= g) := by
  intro u w h
  change (andThen x f u).Alike ok m Q (andThen y g w)
  have hend := hx u w h
  unfold andThen
  generalize x u = o at hend ⊢
  generalize y w = o' at hend ⊢
  cases hend with
  | done result worlds => exact hf _ result _ _ worlds
  | failed worlds => exact .failed worlds
  | exhausted => exact .exhausted

theorem mapError {x y : Action ε α} (hx : Alike ok m P x y) (f : ε → δ) :
    Alike ok m P (x.mapError f) (y.mapError f) := by
  intro u w h
  have hend := hx u w h
  unfold Action.mapError
  generalize x u = o at hend ⊢
  generalize y w = o' at hend ⊢
  cases hend with
  | done result worlds => exact .done result worlds
  | failed worlds => exact .failed worlds
  | exhausted => exact .exhausted

theorem each {f : α → Action ε β} (hf : ∀ a, P a → Steady ok m Q (f a)) {as : List α}
    (has : ∀ a ∈ as, P a) :
    Steady ok m (fun bs => ∀ b ∈ bs, Q b) (Action.each f as) := by
  induction as with
  | nil => exact .pure nofun
  | cons a as ih =>
      rw [List.forall_mem_cons] at has
      exact .bind (hf a has.1) fun b hb => .bind (ih has.2) fun bs hbs =>
        .pure (List.forall_mem_cons.2 ⟨hb, hbs⟩)

theorem accumulate {f : β → α → Action ε β}
    (hf : ∀ b a, Q b → P a → Steady ok m Q (f b a)) {b : β} (hb : Q b) {as : List α}
    (has : ∀ a ∈ as, P a) :
    Steady ok m Q (Action.accumulate f b as) := by
  induction as generalizing b with
  | nil => exact .pure hb
  | cons a as ih =>
      rw [List.forall_mem_cons] at has
      exact .bind (hf b a hb has.1) fun b hb => ih hb has.2

theorem ofExcept (wrong : δ → ε) (x : Except δ α) :
    Steady ok m (fun _ => True) (Action.ofExcept wrong x) := by
  cases x with
  | ok a => exact .pure trivial
  | error e => exact .fail (wrong e)

theorem labelWith (label : Option String) {v : Value} (hv : v.Within ok) :
    Steady ok m (fun _ => True) (Action.labelWith label v : Action ε Unit) := by
  cases label with
  | none => exact .pure trivial
  | some name => exact .change fun _ _ h => h.label name hv

theorem newFunction (info : FunctionInfo) (code : Code) (hcode : code.Within ok) :
    Alike ok m (Value.Within ok) (.make (·.newFunction info (code.shift m)) : Action ε Value)
      (.make (·.newFunction info code)) := by
  refine .make fun u w h => ⟨?_, h.within_new, h.define hcode⟩
  rw [World.newFunction, World.newFunction, h.size_code]

theorem newArray {items : List Value} (hitems : ∀ v ∈ items, v.Within ok) :
    Steady ok m (Value.Within ok) (.make (·.newArray items) : Action ε Value) := by
  refine .make fun u w h => ⟨?_, .nil, h.newArray hitems⟩
  change Value.array _ = Value.array _
  rw [h.heap]

theorem newObject {o : Obj} (ho : ∀ p ∈ o.fields.entries, p.2.Within ok) :
    Steady ok m (Value.Within ok) (.make (·.newObject o) : Action ε Value) := by
  refine .make fun u w h => ⟨?_, .nil, h.newObject ho⟩
  change Value.object _ = Value.object _
  rw [h.heap]

theorem itemsOf (v : Value) :
    Steady ok m (fun items => ∀ x ∈ items, x.Within ok)
      (Action.itemsOf v : Action ε (List Value)) := by
  refine .look fun u w h => ⟨?_, h.tidy.items v⟩
  rw [h.heap]

end Alike

end Action

variable {ok : Nat → Prop} {m : Gap}

/-! ## Building -/

theorem Application.steady_declare (name : String) (constraints : Constraints)
    (types env : List Ty) (checked : Bool) {body : Body} (hbody : body.Within ok) :
    (declare name constraints types env checked body).Steady ok m (Value.Within ok) := by
  cases hdeclare : Signature.declare name constraints types with
  | error d =>
      rw [declare, hdeclare]
      exact .fail d
  | ok signature =>
      intro u w h
      let a : Application := ⟨signature, env, body, List.replicate signature.arity none, none⟩
      have ha : a.Within ok := by
        refine ⟨hbody, fun v hv => ?_⟩
        cases List.eq_of_mem_replicate hv
      rw [declare_of_ok hdeclare, declare_of_ok hdeclare, h.size_code]
      exact .done h.within_new (h.keep ha (initial? checked))

mutual

theorem Literal.steady_build :
    ∀ l : Literal, Names ok l.refs → l.build.Steady ok m (Value.Within ok)
  | .value v, hl => by
      rw [Literal.refs] at hl
      rw [Literal.build]
      exact .pure hl
  | .array label items, hl => by
      rw [Literal.refs] at hl
      rw [Literal.build]
      exact .bind (.newArray nofun) fun target htarget =>
        .bind (.labelWith label htarget) fun _ _ =>
        .bind (Literal.steady_fillArray target items hl) fun _ _ => .pure htarget
  | .object label tag hook fields, hl => by
      rw [Literal.refs] at hl
      rw [Literal.build]
      exact .bind (.newObject nofun) fun target htarget =>
        .bind (.labelWith label htarget) fun _ _ =>
        .bind (Literal.steady_fillObject target fields hl) fun _ _ => .pure htarget
  | .function info body, hl => by
      rw [Literal.refs] at hl
      rw [Literal.build]
      exact .newFunction info (.host ⟨body, []⟩) ⟨hl, nofun⟩
  | .definition name types constraints body env checked, hl => by
      rw [Literal.refs] at hl
      rw [Literal.build]
      exact .bind (TypeExpr.steady_buildAll types hl.left) fun types _ =>
        .bind (TypeExpr.steady_buildAll env hl.right.left) fun env _ =>
        .mapError (Application.steady_declare name constraints types env checked
          ⟨hl.right.right, nofun⟩) _
  | .reference label, _ => by
      rw [Literal.build]
      intro u w h
      beta_reduce
      rw [h.labels]
      cases hfind : w.labels.find? label with
      | none => exact .failed h
      | some v => exact .done (h.tidy.labels (label, v) (SortedMap.find?_eq_some_iff.1 hfind)) h
  | .labelled label l, hl => by
      rw [Literal.refs] at hl
      rw [Literal.build]
      exact .bind (Literal.steady_build l hl) fun v hv =>
        .bind (.labelWith _ hv) fun _ _ => .pure hv

theorem Literal.steady_fillArray (target : Value) :
    ∀ items : List Literal, Names ok (Literal.refsAll items) →
      (Literal.fillArray target items).Steady ok m fun _ => True
  | [], _ => by
      rw [Literal.fillArray]
      exact .pure trivial
  | l :: rest, hl => by
      rw [Literal.refsAll] at hl
      rw [Literal.fillArray]
      exact .bind (Literal.steady_build l hl.left) fun v hv =>
        .bind (.change fun _ _ h => h.push target hv) fun _ _ =>
        Literal.steady_fillArray target rest hl.right

theorem Literal.steady_fillObject (target : Value) :
    ∀ fields : List (String × Literal), Names ok (Literal.refsFields fields) →
      (Literal.fillObject target fields).Steady ok m fun _ => True
  | [], _ => by
      rw [Literal.fillObject]
      exact .pure trivial
  | (key, l) :: rest, hl => by
      rw [Literal.refsFields] at hl
      rw [Literal.fillObject]
      exact .bind (Literal.steady_build l hl.left) fun v hv =>
        .bind (.change fun _ _ h => h.setField target key hv) fun _ _ =>
        Literal.steady_fillObject target rest hl.right

theorem Literal.steady_buildAll :
    ∀ ls : List Literal, Names ok (Literal.refsAll ls) →
      (Literal.buildAll ls).Steady ok m fun vs => ∀ v ∈ vs, v.Within ok
  | [], _ => by
      rw [Literal.buildAll]
      exact .pure nofun
  | l :: rest, hl => by
      rw [Literal.refsAll] at hl
      rw [Literal.buildAll]
      exact .bind (Literal.steady_build l hl.left) fun v hv =>
        .bind (Literal.steady_buildAll rest hl.right) fun vs hvs =>
        .pure (List.forall_mem_cons.2 ⟨hv, hvs⟩)

theorem TypeExpr.steady_build :
    ∀ e : TypeExpr, Names ok e.refs → e.build.Steady ok m fun _ => True
  | .type t, _ => by
      rw [TypeExpr.build]
      exact .pure trivial
  | .con c supers params, he => by
      rw [TypeExpr.refs] at he
      rw [TypeExpr.build]
      exact .bind (TypeExpr.steady_buildAll supers he.left) fun supers _ =>
        .bind (TypeExpr.steady_buildAll params he.right) fun _ _ => .pure trivial
  | .enumeration name url members, he => by
      rw [TypeExpr.refs] at he
      rw [TypeExpr.build]
      exact .bind (Literal.steady_buildAll members he) fun members _ =>
        .bind (.look fun _ _ h => ⟨h.heap, trivial⟩) fun _ (_ : True) => .ofExcept _ _
  | .record fields, he => by
      rw [TypeExpr.refs] at he
      rw [TypeExpr.build]
      exact .bind (TypeExpr.steady_buildFields fields he) fun _ _ => .ofExcept _ _
  | .namedRecord name url supers fields, he => by
      rw [TypeExpr.refs] at he
      rw [TypeExpr.build]
      exact .bind (TypeExpr.steady_buildAll supers he.left) fun supers _ =>
        .bind (TypeExpr.steady_buildFields fields he.right) fun _ _ => .ofExcept _ _
  | .function types, he => by
      rw [TypeExpr.refs] at he
      rw [TypeExpr.build]
      exact .bind (TypeExpr.steady_buildAll types he) fun _ _ => .ofExcept _ _
  | .bareFunction types, he => by
      rw [TypeExpr.refs] at he
      rw [TypeExpr.build]
      exact .bind (TypeExpr.steady_buildAll types he) fun _ _ => .pure trivial
  | .var name params, he => by
      rw [TypeExpr.refs] at he
      rw [TypeExpr.build]
      exact .bind (TypeExpr.steady_buildAll params he) fun _ _ => .pure trivial

theorem TypeExpr.steady_buildAll :
    ∀ es : List TypeExpr, Names ok (TypeExpr.refsAll es) →
      (TypeExpr.buildAll es).Steady ok m fun _ => True
  | [], _ => by
      rw [TypeExpr.buildAll]
      exact .pure trivial
  | e :: rest, he => by
      rw [TypeExpr.refsAll] at he
      rw [TypeExpr.buildAll]
      exact .bind (TypeExpr.steady_build e he.left) fun t _ =>
        .bind (TypeExpr.steady_buildAll rest he.right) fun ts _ => .pure trivial

theorem TypeExpr.steady_buildFields :
    ∀ fields : List (String × TypeExpr), Names ok (TypeExpr.refsFields fields) →
      (TypeExpr.buildFields fields).Steady ok m fun _ => True
  | [], _ => by
      rw [TypeExpr.buildFields]
      exact .pure trivial
  | (key, e) :: rest, he => by
      rw [TypeExpr.refsFields] at he
      rw [TypeExpr.buildFields]
      exact .bind (TypeExpr.steady_build e he.left) fun t _ =>
        .bind (TypeExpr.steady_buildFields rest he.right) fun ts _ => .pure trivial

end

/-! ## Evaluating -/

section Evaluation

/-- Whether calls end in the same way in worlds alike, if they name no function that
they must not. -/
def SteadyCalls (ok : Nat → Prop) (m : Gap)
    (call : Nat → List Value → Action Diagnostic Value) :
    Prop :=
  ∀ f args, ok f → (∀ v ∈ args, v.Within ok) → (call f args).Steady ok m (Value.Within ok)

variable {call : Nat → List Value → Action Diagnostic Value} {frames : List (List Value)}

theorem Value.steady_callWith (hcall : SteadyCalls ok m call) {f : Value}
    (hf : f.Within ok) {args : List Value} (hargs : ∀ v ∈ args, v.Within ok) :
    (f.callWith call args).Steady ok m (Value.Within ok) := by
  cases f with
  | function i info => exact hcall i args (hf i (List.mem_singleton.2 rfl)) hargs
  | _ => exact .pure .nil

mutual

theorem Expr.steady_eval (hcall : SteadyCalls ok m call)
    (hframes : ∀ frame ∈ frames, ∀ v ∈ frame, v.Within ok) :
    ∀ e : Expr, Names ok e.refs → (e.eval call frames).Steady ok m (Value.Within ok)
  | .arg index outer, _ => by
      rw [Expr.eval]
      refine .pure (within_getD (fun v hv => ?_) index)
      cases hframe : frames[outer]? with
      | none =>
          rw [hframe] at hv
          cases hv
      | some frame =>
          rw [hframe] at hv
          exact hframes frame (List.mem_of_getElem? hframe) v hv
  | .allArgs, _ => by
      rw [Expr.eval]
      refine .newArray fun v hv => ?_
      cases frames with
      | nil => cases hv
      | cons frame frames => exact hframes frame List.mem_cons_self v hv
  | .literal l, he => by
      rw [Expr.refs] at he
      rw [Expr.eval]
      exact .mapError (l.steady_build he) _
  | .add a b, he => by
      rw [Expr.refs] at he
      rw [Expr.eval]
      exact .bind (Expr.steady_eval hcall hframes a he.left) fun _ _ =>
        .bind (Expr.steady_eval hcall hframes b he.right) fun _ _ => .pure .nil
  | .call f args, he => by
      rw [Expr.refs] at he
      rw [Expr.eval]
      exact .bind (Expr.steady_eval hcall hframes f he.left) fun f hf =>
        .bind (Expr.steady_evalAll hcall hframes args he.right) fun args hargs =>
        f.steady_callWith hcall hf hargs
  | .map f items, he => by
      rw [Expr.refs] at he
      rw [Expr.eval]
      exact .bind (Expr.steady_eval hcall hframes f he.left) fun f hf =>
        .bind (Expr.steady_eval hcall hframes items he.right) fun items _ =>
        .bind (.itemsOf items) fun items hitems =>
        .bind (.each (fun v hv => f.steady_callWith hcall hf (by simpa using hv)) hitems)
          fun results hresults => .newArray hresults
  | .fold f initial items, he => by
      rw [Expr.refs] at he
      rw [Expr.eval]
      exact .bind (Expr.steady_eval hcall hframes f he.left) fun f hf =>
        .bind (Expr.steady_eval hcall hframes initial he.right.left) fun initial hinitial =>
        .bind (Expr.steady_eval hcall hframes items he.right.right) fun items _ =>
        .bind (.itemsOf items) fun items hitems =>
        .accumulate (fun acc v hacc hv => f.steady_callWith hcall hf (by simp [hacc, hv])) hinitial
          hitems
  | .array items, he => by
      rw [Expr.refs] at he
      rw [Expr.eval]
      exact .bind (Expr.steady_evalAll hcall hframes items he) fun items hitems => .newArray hitems
  | .object fields, he => by
      rw [Expr.refs] at he
      rw [Expr.eval]
      exact .bind (Expr.steady_evalFields hcall hframes fields he) fun fields hfields =>
        .newObject fun p hp => hfields p (SortedMap.mem_ofList hp)
  | .print e, he => by
      rw [Expr.refs] at he
      rw [Expr.eval]
      refine .bind (Expr.steady_eval hcall hframes e he) fun v _ => .look fun u w h => ⟨?_, .nil⟩
      rw [h.heap]
  | .concat a b, he => by
      rw [Expr.refs] at he
      rw [Expr.eval]
      exact .bind (Expr.steady_eval hcall hframes a he.left) fun a _ =>
        .bind (Expr.steady_eval hcall hframes b he.right) fun b _ =>
        .bind (.itemsOf a) fun first hfirst =>
        .bind (.itemsOf b) fun second hsecond =>
        .newArray (List.forall_mem_append.2 ⟨hfirst, hsecond⟩)
  | .length items, he => by
      rw [Expr.refs] at he
      rw [Expr.eval]
      exact .bind (Expr.steady_eval hcall hframes items he) fun items _ =>
        .bind (.itemsOf items) fun _ _ => .pure .nil
  | .field e key, he => by
      rw [Expr.refs] at he
      rw [Expr.eval]
      refine .bind (Expr.steady_eval hcall hframes e he) fun v _ =>
        .look fun u w h => ⟨?_, h.tidy.field v key⟩
      rw [h.heap]
  | .item e index, he => by
      rw [Expr.refs] at he
      rw [Expr.eval]
      exact .bind (Expr.steady_eval hcall hframes e he) fun v _ =>
        .bind (.itemsOf v) fun items hitems => .pure (within_getD hitems index)
  | .push items e, he => by
      rw [Expr.refs] at he
      rw [Expr.eval]
      exact .bind (Expr.steady_eval hcall hframes items he.left) fun target htarget =>
        .bind (Expr.steady_eval hcall hframes e he.right) fun v hv =>
        .bind (.change fun _ _ h => h.push target hv) fun _ _ => .pure htarget
  | .sequence es, he => by
      rw [Expr.refs] at he
      rw [Expr.eval]
      refine .bind (Expr.steady_evalAll hcall hframes es he) fun vs hvs => .pure ?_
      rw [List.getLast?_eq_getElem?]
      exact within_getD hvs _
  | .ite test e yes no, he => by
      rw [Expr.refs] at he
      rw [Expr.eval]
      refine .bind (Expr.steady_eval hcall hframes e he.left) fun v _ =>
        .bind (.look fun u w h => ⟨by rw [h.heap], trivial⟩) fun holds (_ : True) => ?_
      split
      · exact Expr.steady_eval hcall hframes yes he.right.left
      · exact Expr.steady_eval hcall hframes no he.right.right
  | .function name arity body, he => by
      rw [Expr.refs] at he
      rw [Expr.eval]
      exact .newFunction _ (.host ⟨body, frames⟩) ⟨he, hframes⟩
  | .raise category message, _ => by
      rw [Expr.eval]
      exact .fail _
  | .attempt e, he => by
      rw [Expr.refs] at he
      intro u w h
      have hend := Expr.steady_eval hcall hframes e he u w h
      rw [Expr.eval]
      beta_reduce
      generalize e.eval call frames u = o at hend ⊢
      generalize e.eval call frames w = o' at hend ⊢
      cases hend with
      | done result worlds => exact .done result worlds
      | failed worlds => exact .done .nil worlds
      | exhausted => exact .exhausted

theorem Expr.steady_evalAll (hcall : SteadyCalls ok m call)
    (hframes : ∀ frame ∈ frames, ∀ v ∈ frame, v.Within ok) :
    ∀ es : List Expr, Names ok (Expr.refsAll es) →
      (Expr.evalAll call frames es).Steady ok m fun vs => ∀ v ∈ vs, v.Within ok
  | [], _ => by
      rw [Expr.evalAll]
      exact .pure nofun
  | e :: rest, he => by
      rw [Expr.refsAll] at he
      rw [Expr.evalAll]
      exact .bind (Expr.steady_eval hcall hframes e he.left) fun v hv =>
        .bind (Expr.steady_evalAll hcall hframes rest he.right) fun vs hvs =>
        .pure (List.forall_mem_cons.2 ⟨hv, hvs⟩)

theorem Expr.steady_evalFields (hcall : SteadyCalls ok m call)
    (hframes : ∀ frame ∈ frames, ∀ v ∈ frame, v.Within ok) :
    ∀ fields : List (String × Expr), Names ok (Expr.refsFields fields) →
      (Expr.evalFields call frames fields).Steady ok m fun vs => ∀ p ∈ vs, p.2.Within ok
  | [], _ => by
      rw [Expr.evalFields]
      exact .pure nofun
  | (key, e) :: rest, he => by
      rw [Expr.refsFields] at he
      rw [Expr.evalFields]
      exact .bind (Expr.steady_eval hcall hframes e he.left) fun v hv =>
        .bind (Expr.steady_evalFields hcall hframes rest he.right) fun vs hvs =>
        .pure (List.forall_mem_cons.2 ⟨hv, hvs⟩)

end

theorem Body.steady_run (hcall : SteadyCalls ok m call) {body : Body}
    (hbody : body.Within ok) {args : List Value} (hargs : ∀ v ∈ args, v.Within ok) :
    (body.run call args).Steady ok m (Value.Within ok) :=
  body.expr.steady_eval hcall (List.forall_mem_cons.2 ⟨hargs, hbody.2⟩) hbody.1

end Evaluation

/-! ## Checking and wrapping -/

namespace Session

theorem alike_conclude (s : Session) (verdict : Heap → Bindings → Verdict) :
    Action.Alike ok m (fun _ => True) ((s.shift m).conclude verdict) (s.conclude verdict) := by
  intro u w h
  have hbindings : (s.shift m).bindings u = s.bindings w :=
    congrArg SessionState.bindings (h.session s.state)
  have hleft := h.setSession s.state
    ((w.session s.state).record (verdict w.heap (s.bindings w)))
  cases hverdict : (verdict w.heap (s.bindings w)).failure? with
  | some f =>
      have hverdict' : (verdict u.heap ((s.shift m).bindings u)).failure? = some f := by
        rw [h.heap, hbindings, hverdict]
      rw [conclude_of_some hverdict, conclude_of_some hverdict', h.heap, hbindings]
      exact .failed (h.session s.state ▸ hleft)
  | none =>
      have hverdict' : (verdict u.heap ((s.shift m).bindings u)).failure? = none := by
        rw [h.heap, hbindings, hverdict]
      rw [conclude_of_none hverdict, conclude_of_none hverdict', h.heap, hbindings]
      exact .done trivial (h.session s.state ▸ hleft)

theorem alike_check (s : Session) (t : Ty) (locus : Locus) (v : Value) :
    Action.Alike ok m (fun _ => True) ((s.shift m).check t locus v) (s.check t locus v) :=
  s.alike_conclude _

theorem alike_wrap {ε : Type} (s : Session) (t : Ty) (locus : Locus) {v : Value}
    (hv : v.Within ok) :
    Action.Alike ok m (Value.Within ok) ((s.shift m).wrap t locus v : Action ε Value)
      (s.wrap t locus v) := by
  unfold wrap
  split
  · next types inner _ =>
      split
      · exact .pure hv
      · next result _ =>
          exact .newFunction _ (.guarded ⟨s, locus, types.dropLast, result, inner⟩)
            (hv inner (List.mem_singleton.2 rfl))
  · exact .pure hv

theorem alike_checkResult (s : Session) {v : Value} (hv : v.Within ok) :
    Action.Alike ok m (Value.Within ok) ((s.shift m).checkResult v) (s.checkResult v) :=
  .bind (s.alike_check _ _ v) fun _ _ => s.alike_wrap _ _ hv

theorem alike_wrapArguments {ε : Type} (s : Session) (i : Nat) {vs : List Value}
    (hvs : ∀ v ∈ vs, v.Within ok) :
    Action.Alike ok m (fun vs => ∀ v ∈ vs, v.Within ok)
      ((s.shift m).wrapArguments i vs : Action ε (List Value)) (s.wrapArguments i vs) := by
  induction vs generalizing i with
  | nil => exact .pure nofun
  | cons v rest ih =>
      rw [List.forall_mem_cons] at hvs
      have hrest : ∀ v, v.Within ok → Action.Alike ok m (fun vs => ∀ v ∈ vs, v.Within ok)
          (do let rest ← (s.shift m).wrapArguments (i + 1) rest; pure (v :: rest) :
            Action ε (List Value))
          (do let rest ← s.wrapArguments (i + 1) rest; pure (v :: rest)) := fun v hv =>
        .bind (ih (i + 1) hvs.2) fun rest hrest => .pure (List.forall_mem_cons.2 ⟨hv, hrest⟩)
      rw [wrapArguments, wrapArguments, show (s.shift m).signature = s.signature from rfl]
      cases s.signature.params[i]? with
      | some t => exact .bind (s.alike_wrap t _ hvs.1) hrest
      | none => exact .bind (.pure hvs.1) hrest

end Session

/-! ## Calling -/

section Calls

variable {call : Nat → List Value → Action Diagnostic Value}
  {run : Body → List Value → Action Diagnostic Value}

theorem Contract.alike_accept (c : Contract) (n : Nat) (ts : List Ty) {vs : List Value}
    (hvs : ∀ v ∈ vs, v.Within ok) :
    Action.Alike ok m (fun vs => ∀ v ∈ vs, v.Within ok) ((c.shift m).accept n ts vs)
      (c.accept n ts vs) := by
  induction ts generalizing n vs with
  | nil => exact .pure nofun
  | cons t ts ih =>
      cases vs with
      | nil => exact .pure nofun
      | cons v vs =>
          rw [List.forall_mem_cons] at hvs
          exact .bind (c.session.alike_check t _ v) fun _ _ =>
            .bind (c.session.alike_wrap t _ hvs.1) fun v hv =>
            .bind (ih (n + 1) hvs.2) fun vs hvs => .pure (List.forall_mem_cons.2 ⟨hv, hvs⟩)

theorem Contract.alike_call (hcall : SteadyCalls ok m call) {c : Contract}
    (hc : ok c.inner) {args : List Value} (hargs : ∀ v ∈ args, v.Within ok) :
    Action.Alike ok m (Value.Within ok) ((c.shift m).call call args) (c.call call args) := by
  by_cases harity : args.length = c.params.length
  · have hleft : (c.shift m).call call args = _ := if_pos harity
    have hright : c.call call args = _ := if_pos harity
    rw [hleft, hright]
    exact .bind (c.alike_accept 1 c.params hargs) fun args hargs =>
      .bind (hcall c.inner args hc hargs) fun result hresult =>
      .bind (c.session.alike_check c.result _ result) fun _ _ =>
      c.session.alike_wrap c.result _ hresult
  · have hleft : (c.shift m).call call args = _ := if_neg harity
    have hright : c.call call args = _ := if_neg harity
    rw [hleft, hright]
    intro u w h
    change Outcome.Alike ok m _ (.failed (c.session.diagnostic u.heap _) u) _
    rw [h.heap]
    exact .failed h

namespace Application

/-- Whether bodies run in the same way in worlds alike. -/
def SteadyRuns (ok : Nat → Prop) (m : Gap)
    (run : Body → List Value → Action Diagnostic Value) :
    Prop :=
  ∀ body args, body.Within ok → (∀ v ∈ args, v.Within ok) →
    (run body args).Steady ok m (Value.Within ok)

theorem alike_invoke (hrun : SteadyRuns ok m run) {a : Application} (ha : a.Within ok) :
    Action.Alike ok m (Value.Within ok) ((a.shift m).invoke run) (a.invoke run) := by
  unfold invoke session? shift
  cases a.state? with
  | none => exact hrun a.body a.arguments ha.1 ha.arguments
  | some i =>
      let s : Session := ⟨a.signature, a.env, i⟩
      exact .bind (s.alike_wrapArguments 0 ha.arguments) fun args hargs =>
        .bind (hrun a.body args ha.1 hargs) fun result hresult => s.alike_checkResult hresult

theorem known_shift {u w : World} (h : World.Alike ok m u w) (a : Application) :
    (a.shift m).known u = a.known w := by
  rw [known, known, shift, Option.map_map]
  exact congrArg (a.state?.map ·) (funext h.session)

theorem alike_apply (hrun : SteadyRuns ok m run) {a : Application} (ha : a.Within ok)
    {args : List Value} (hargs : ∀ v ∈ args, v.Within ok) :
    Action.Alike ok m (Value.Within ok) ((a.shift m).apply run args) (a.apply run args) := by
  intro u w h
  by_cases hcount : InArity a.openSlots args
  · have hlearn : (a.shift m).learn u.heap ((a.shift m).placed args) ((a.shift m).known u) =
        a.learn w.heap (a.placed args) (a.known w) := by
      rw [known_shift h, h.heap]
      rfl
    have hplaced : ∀ p ∈ a.placed args, p.1.Within ok := within_taken _ hargs
    cases hlearns : a.learn w.heap (a.placed args) (a.known w) with
    | error d =>
        rw [hlearns] at hlearn
        rw [apply_of_refuses hcount hlearns, apply_of_refuses (a := a.shift m) hcount hlearn]
        exact .failed h
    | ok next =>
        rw [hlearns] at hlearn
        by_cases hfull : left a.openSlots args = []
        · have hshift : (a.shift m).advance (a.placed args) (next.map fun _ => u.sessions.size) =
              (a.advance (a.placed args) (next.map fun _ => w.sessions.size)).shift m :=
            (h.shift_new (a.advance (a.placed args) none) next).symm
          rw [apply_of_full hcount hlearns _ hfull,
            apply_of_full (a := a.shift m) hcount hlearn _ hfull]
          change Outcome.Alike ok m _ (((a.shift m).advance (a.placed args) _).invoke run _) _
          rw [hshift]
          exact alike_invoke hrun (ha.advance hplaced _) _ _ (h.beginSome next)
        · rw [apply_of_open hcount hlearns _ hfull,
            apply_of_open (a := a.shift m) hcount hlearn _ hfull, h.size_code]
          exact .done h.within_new (h.keep (ha.advance hplaced none) next)
  · rw [apply_of_miscounted hcount, apply_of_miscounted (a := a.shift m) hcount, h.heap]
    exact .failed h

end Application

theorem steadyCalls_callFunction (depth : Nat) :
    SteadyCalls ok m (callFunction depth) := by
  induction depth with
  | zero => exact fun _ _ _ _ _ _ _ => .exhausted
  | succ depth ih =>
      intro f args hf hargs u w h
      have hrun : Application.SteadyRuns ok m (Body.run (callFunction depth)) :=
        fun _ _ hbody hargs => Body.steady_run ih hbody hargs
      rw [callFunction]
      beta_reduce
      rw [h.code hf]
      cases hcode : w.code[f]? with
      | none => exact .done .nil h
      | some code =>
          have hwithin := h.tidy.code hf hcode
          cases code with
          | host body => exact hrun body args hwithin hargs u w h
          | applied a => exact Application.alike_apply hrun hwithin hargs u w h
          | guarded c => exact Contract.alike_call ih hwithin hargs u w h

end Calls

end DynamicTypes
