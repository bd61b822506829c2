import DynamicTypes.Proofs.SignatureLayout

/-!
# The order of positions and their order in the text

A variable that cannot be reconciled is reported with all positions where values were
seen for it, one numbered block for each. They come in the order of positions, which goes
by index and then by path, key by key. What a reader sees is the order of columns.

Most of the time the two agree. Components come in the order of their keys: fields are
sorted by name, and the slots of a function or of a constructor are numbered. But the
numbers are compared as texts, and `$10` comes before `$2`. `Crosses` says that two
positions part at two such slots, in a place that is displayed; `before_cases` says that
this is the one way in which columns can decrease, and that then they do.
-/

namespace DynamicTypes

/-! ## Pieces behind one another -/

namespace Piece

/-- Whether a component that is not the last piece has characters behind it. -/
def Spaced : List Piece → Prop
  | [] => True
  | text _ :: ps => Spaced ps
  | part _ _ _ :: ps =>
      (∀ p ∈ ps.head?, ∃ characters, p = text characters ∧ characters ≠ "") ∧ Spaced ps

theorem Spaced.tail {p : Piece} {ps : List Piece} (hps : Spaced (p :: ps)) :
    Spaced ps := by
  cases p with
  | text characters => exact hps
  | part key t wrap => exact hps.2

theorem Spaced.drop {ps qs : List Piece} (hps : Spaced (ps ++ qs)) : Spaced qs := by
  induction ps with
  | nil => exact hps
  | cons p ps ih => exact ih hps.tail

theorem Spaced.texts_pos {key key' : String} {t t' : Ty} {wrap wrap' : Bool}
    {ps qs rs : List Piece}
    (hps : Spaced (ps ++ part key t wrap :: (qs ++ part key' t' wrap' :: rs))) :
    0 < (texts qs).length := by
  obtain ⟨hnext, _⟩ := hps.drop
  cases qs with
  | nil =>
      obtain ⟨characters, heq, _⟩ := hnext _ rfl
      cases heq
  | cons q qs =>
      obtain ⟨characters, rfl, hne⟩ := hnext q rfl
      have hpos : 0 < characters.length :=
        Nat.pos_of_ne_zero fun h => hne (String.length_eq_zero_iff.1 h)
      rw [texts, String.length_append]
      exact Nat.add_pos_left hpos _

theorem split_parts {ps : List Piece} {xs ys : List (String × Ty)} {key : String}
    {t : Ty} (hparts : parts ps = xs ++ (key, t) :: ys) :
    ∃ ps₁ wrap ps₂, ps = ps₁ ++ part key t wrap :: ps₂ ∧ parts ps₂ = ys := by
  induction ps generalizing xs with
  | nil => exact absurd hparts (by simp [parts])
  | cons p ps ih =>
      cases p with
      | text characters =>
          obtain ⟨ps₁, wrap, ps₂, rfl, hys⟩ := ih hparts
          exact ⟨text characters :: ps₁, wrap, ps₂, rfl, hys⟩
      | part key' u wrap =>
          cases xs with
          | nil =>
              obtain ⟨heq, hys⟩ := List.cons.inj hparts
              cases heq
              exact ⟨[], wrap, ps, rfl, hys⟩
          | cons x xs =>
              obtain ⟨ps₁, wrap', ps₂, rfl, hys⟩ := ih (List.cons.inj hparts).2
              exact ⟨part key' u wrap :: ps₁, wrap', ps₂, rfl, hys⟩

end Piece

namespace Ty

open Piece

theorem spaced_paramPieces (n : Nat) (ts : List Ty) : Spaced (paramPieces n ts) := by
  induction ts generalizing n with
  | nil => trivial
  | cons t ts ih =>
      refine ⟨fun p hp => ?_, ih (n + 1)⟩
      cases ts with
      | nil => cases hp
      | cons u ts =>
          cases hp
          exact ⟨" ", rfl, by decide⟩

theorem spaced_fieldPieces (fields : List (String × Ty)) :
    Spaced (fieldPieces fields ++ [.text " \x7d"]) := by
  induction fields with
  | nil => trivial
  | cons f fields ih =>
      cases fields with
      | nil =>
          refine ⟨fun p hp => ?_, trivial⟩
          cases hp
          exact ⟨" \x7d", rfl, by decide⟩
      | cons g fields =>
          refine ⟨fun p hp => ?_, ih⟩
          cases hp
          exact ⟨", ", rfl, by decide⟩

theorem spaced_typePieces (n : Nat) (ts : List Ty) : Spaced (typePieces n ts) := by
  induction ts generalizing n with
  | nil => exact ⟨nofun, trivial⟩
  | cons t ts ih =>
      cases ts with
      | nil => exact ⟨nofun, trivial⟩
      | cons u ts =>
          refine ⟨fun p hp => ?_, ih (n + 1)⟩
          cases hp
          exact ⟨" -> ", rfl, by decide⟩

theorem spaced_pieces (t : Ty) : Spaced t.pieces := by
  cases t with
  | con c supers params => exact spaced_paramPieces 1 params
  | var name params => exact spaced_paramPieces 1 params
  | record r supers fields =>
      rw [pieces]
      cases r.name with
      | some name => trivial
      | none =>
          cases fields with
          | nil => trivial
          | cons f fields => exact spaced_fieldPieces (f :: fields)
  | function types =>
      rw [pieces]
      split
      · exact spaced_typePieces 1 types
      · exact spaced_typePieces 1 types
  | enumeration | unknown | inconsistent | noArguments | any => trivial

variable {t u u' c c' : Ty} {key key' : String} {p q : List String}
  {before before' after after' : String}

/-- What is in one component stands before what is in a later one. -/
theorem Shows.before_lt (ht : t.KeysApart) {xs ys zs : List (String × Ty)}
    (horder : t.components = xs ++ (key, c) :: (ys ++ (key', c') :: zs))
    (hshows : Shows t (key :: p) u before after)
    (hshows' : Shows t (key' :: q) u' before' after') :
    before.length + u.format.length < before'.length := by
  have hnodup := ht.nodup_components
  have hspaced := t.spaced_pieces
  rw [← parts_pieces] at horder hnodup
  obtain ⟨ps, wrap, rest, hps, hrest⟩ := split_parts horder
  obtain ⟨qs, wrap', rs, rfl, _⟩ := split_parts hrest
  have hpos := (hps ▸ hspaced).texts_pos
  have hps' : t.pieces = (ps ++ .part key c wrap :: qs) ++ .part key' c' wrap' :: rs := by
    rw [hps]
    simp
  cases hshows with
  | @part _ _ _ _ _ _ inner after ps₁ qs₁ split shown =>
      cases hshows' with
      | @part _ _ _ _ _ _ inner' after' ps₂ qs₂ split' shown' =>
          obtain ⟨rfl, rfl, rfl, -⟩ := split_unique (hps ▸ hnodup) (hps.symm.trans split)
          obtain ⟨rfl, rfl, rfl, -⟩ := split_unique (hps' ▸ hnodup) (hps'.symm.trans split')
          have hlength := congrArg String.length shown.format_eq
          simp only [String.length_append] at hlength
          simp only [texts_append, texts, Piece.format, String.length_append]
          omega

/-- Of what is in one component the order is that in the component. -/
theorem Shows.tail (ht : t.KeysApart) (hc : (key, c) ∈ t.components)
    (hshows : Shows t (key :: p) u before after)
    (hshows' : Shows t (key :: q) u' before' after') :
    ∃ lead inner rest inner' rest', Shows c p u inner rest ∧ Shows c q u' inner' rest' ∧
      before = lead ++ inner ∧ before' = lead ++ inner' := by
  have hnodup := ht.nodup_components
  rw [← parts_pieces] at hnodup hc
  obtain ⟨ps, wrap, qs, hps⟩ := mem_parts.1 hc
  cases hshows with
  | @part _ _ _ _ _ _ inner rest ps₁ qs₁ split shown =>
      cases hshows' with
      | @part _ _ _ _ _ _ inner' rest' ps₂ qs₂ split' shown' =>
          obtain ⟨rfl, rfl, rfl, -⟩ := split_unique (hps ▸ hnodup) (hps.symm.trans split)
          obtain ⟨rfl, rfl, rfl, -⟩ := split_unique (hps ▸ hnodup) (hps.symm.trans split')
          exact ⟨texts ps ++ opening wrap, inner, rest, inner', rest', shown, shown',
            String.append_assoc.symm, String.append_assoc.symm⟩

/-! ## Positions that cross -/

def isRecord : Ty → Bool
  | record _ _ _ => true
  | _ => false

theorem exists_record (ht : t.isRecord = true) :
    ∃ r supers fields, t = record r supers fields := by
  cases t with
  | record r supers fields => exact ⟨r, supers, fields, rfl⟩
  | _ => cases ht

/-- What is not a record has numbered slots. -/
theorem exists_slots (ht : t.isRecord = false) :
    (∃ ts, t.children = keyed 1 ts) ∧ ∃ ts, t.components = keyed 1 ts := by
  cases t with
  | record r supers fields => cases ht
  | _ => exact ⟨⟨_, rfl⟩, _, rfl⟩

/-- Whether two paths in a type part at two slots of a function, a constructor or a
variable that is displayed, the first of them at the later slot. -/
inductive Crosses : Ty → List String → List String → Prop where
  | here {t : Ty} {m n : Nat} {p q : List String} (slots : t.isRecord = false) (later : n < m) :
      Crosses t (paramKey m :: p) (paramKey n :: q)
  | inside {t c : Ty} {key : String} {p q : List String} (shown : t.isNamedRecord = false)
      (mem : (key, c) ∈ t.children) (crosses : Crosses c p q) : Crosses t (key :: p) (key :: q)

theorem Crosses.cases_cons (hcrosses : Crosses t (key :: p) (key' :: q)) :
    (t.isRecord = false ∧ ∃ m n, key = paramKey m ∧ key' = paramKey n ∧ n < m) ∨
    (key = key' ∧ ∃ c, (key, c) ∈ t.children ∧ Crosses c p q) := by
  -- the indices of `here` are applications, which `cases` does not unify with a key
  generalize hfirst : key :: p = first at hcrosses
  generalize hsecond : key' :: q = second at hcrosses
  cases hcrosses with
  | @here _ m n _ _ slots later =>
      exact .inl ⟨slots, m, n, (List.cons.inj hfirst).1, (List.cons.inj hsecond).1, later⟩
  | @inside _ c _ _ _ shown mem crosses =>
      obtain ⟨rfl, rfl⟩ := List.cons.inj hfirst
      obtain ⟨rfl, rfl⟩ := List.cons.inj hsecond
      exact .inr ⟨rfl, c, mem, crosses⟩

theorem ne_of_compare (hlt : compare key key' = .lt) : key ≠ key' := by
  intro heq
  have hself : compare key' key' = .eq := Std.ReflCmp.compare_self
  rw [heq, hself] at hlt
  cases hlt

/-- Whether the records inside a type list their fields in the order of their names. -/
def FieldsSorted (t : Ty) : Prop :=
  t.EachRecord fun fields => fields.Pairwise fun f g => compare f.1 g.1 = .lt

theorem FieldsSorted.keysApart (ht : t.FieldsSorted) : t.KeysApart := by
  intro r supers fields hinside
  exact List.pairwise_map.2 ((ht r supers fields hinside).imp ne_of_compare)

/-- The records that can be declared sort their fields. -/
theorem fieldsSorted_declareRecord {fields : List (String × Ty)}
    (hdeclared : declareRecord fields = .ok t)
    (hfields : ∀ f ∈ fields, f.2.FieldsSorted) :
    t.FieldsSorted :=
  eachRecord_declareRecord (·.sorted) hdeclared hfields

/-- Slots are numbered from left to right. -/
theorem keyed_order {n : Nat} {ts : List Ty} {xs ys zs : List (String × Ty)}
    (horder : keyed n ts = xs ++ (key, c) :: (ys ++ (key', c') :: zs)) :
    ∃ i j, key = paramKey i ∧ key' = paramKey j ∧ i < j := by
  have hnumber : ∀ i k u, (keyed n ts)[i]? = some (k, u) → k = paramKey (n + i) := by
    intro i k u hi
    rw [getElem?_keyed] at hi
    obtain ⟨v, _, heq⟩ := Option.map_eq_some_iff.1 hi
    cases heq
    rfl
  refine ⟨n + xs.length, n + (xs.length + (ys.length + 1)), hnumber _ _ c ?_, hnumber _ _ c' ?_,
    by omega⟩
  · rw [horder]
    simp
  · rw [horder, List.getElem?_append_right (by omega)]
    simp

theorem crosses_cons_iff (ht : t.KeysApart) (hnamed : t.isNamedRecord = false)
    (hc : (key, c) ∈ t.children) : Crosses t (key :: p) (key :: q) ↔ Crosses c p q := by
  constructor
  · intro hcrosses
    rcases hcrosses.cases_cons with ⟨_, m, n, hm, hn, hlt⟩ | ⟨_, c', hc', hinside⟩
    · have := paramKey_inj.1 (hm.symm.trans hn)
      omega
    · have hsame := find?_of_nodup ht.nodup_children hc
      rw [find?_of_nodup ht.nodup_children hc'] at hsame
      cases hsame
      exact hinside
  · exact .inside hnamed hc

theorem not_crosses_record (hne : key ≠ key') (ht : t.isRecord = true) :
    ¬ Crosses t (key :: p) (key' :: q) := by
  intro hcrosses
  rcases hcrosses.cases_cons with ⟨hslots, _⟩ | ⟨heq, _⟩
  · cases ht.symm.trans hslots
  · exact hne heq

theorem not_crosses_named (ht : t.isNamedRecord = true) : ¬ Crosses t p q := by
  intro hcrosses
  cases hcrosses with
  | here slots later =>
      cases t with
      | record r supers fields => cases slots
      | _ => cases ht
  | inside shown mem crosses => cases ht.symm.trans shown

theorem crosses_slots_iff {m n : Nat} (hne : m ≠ n) (ht : t.isRecord = false) :
    Crosses t (paramKey m :: p) (paramKey n :: q) ↔ n < m := by
  constructor
  · intro hcrosses
    rcases hcrosses.cases_cons with ⟨_, m', n', hm, hn, hlt⟩ | ⟨heq, _⟩
    · rw [paramKey_inj] at hm hn
      omega
    · exact absurd (paramKey_inj.1 heq) hne
  · exact .here ht

/-- Fields stand in the order of their names. -/
theorem before_le_of_record (ht : t.FieldsSorted) (hrecord : t.isRecord = true)
    (hnamed : t.isNamedRecord = false) (hc : (key, c) ∈ t.children)
    (hc' : (key', c') ∈ t.children) (hlt : compare key key' = .lt)
    (hshows : Shows t (key :: p) u before after)
    (hshows' : Shows t (key' :: q) u' before' after') :
    before.length ≤ before'.length := by
  obtain ⟨r, supers, fields, rfl⟩ := exists_record hrecord
  have hcomponents : (record r supers fields).components = fields :=
    if_neg (Bool.eq_false_iff.1 hnamed)
  have hsorted := ht r supers fields .self
  rcases ordered_of_mem hc hc' (ne_of_compare hlt) with ⟨xs, ys, zs, horder⟩ | ⟨xs, ys, zs, horder⟩
  · have hbefore := hshows.before_lt ht.keysApart (hcomponents.trans horder) hshows'
    omega
  · change fields = _ at horder
    rw [horder, List.pairwise_append, List.pairwise_cons] at hsorted
    have hgt : compare key' key = .lt := hsorted.2.1.1 (key, c) (by simp)
    have hswap : compare key key' = (compare key' key).swap := Std.OrientedCmp.eq_swap
    rw [hswap, hgt] at hlt
    cases hlt

/-- Where two paths part, columns and keys go the same way unless the paths cross. -/
theorem before_cases_apart (ht : t.FieldsSorted) (hnamed : t.isNamedRecord = false)
    (hc : (key, c) ∈ t.children) (hc' : (key', c') ∈ t.children)
    (hlt : compare key key' = .lt) (p' q' : List String)
    (hshows : Shows t (key :: p) u before after)
    (hshows' : Shows t (key' :: q) u' before' after') :
    Crosses t (key :: p') (key' :: q') ∧ before'.length < before.length ∨
    ¬ Crosses t (key :: p') (key' :: q') ∧ before.length ≤ before'.length := by
  have hne := ne_of_compare hlt
  cases hrecord : t.isRecord with
  | true =>
      exact .inr ⟨not_crosses_record hne hrecord,
        before_le_of_record ht hrecord hnamed hc hc' hlt hshows hshows'⟩
  | false =>
      obtain ⟨_, ts, hts⟩ := exists_slots hrecord
      have hcomponent := mem_components_of_children hnamed hc
      have hcomponent' := mem_components_of_children hnamed hc'
      rcases ordered_of_mem hcomponent hcomponent' hne with
        ⟨xs, ys, zs, horder⟩ | ⟨xs, ys, zs, horder⟩
      · have hbefore := hshows.before_lt ht.keysApart horder hshows'
        obtain ⟨i, j, rfl, rfl, hij⟩ := keyed_order (hts ▸ horder)
        refine .inr ⟨fun hcrosses => ?_, by omega⟩
        have := (crosses_slots_iff (by omega) hrecord).1 hcrosses
        omega
      · have hbefore := hshows'.before_lt ht.keysApart horder hshows
        obtain ⟨i, j, rfl, rfl, hij⟩ := keyed_order (hts ▸ horder)
        exact .inl ⟨.here hrecord hij, by omega⟩

/-- Of two paths in a type, the one that comes first is displayed first, unless they
cross; then it is displayed behind the other. -/
theorem before_cases {v v' : Ty} (ht : t.FieldsSorted) (hp : t.at? p = some v)
    (hq : t.at? q = some v') (hlt : compare p q = .lt)
    (hshows : Shows t (t.displayed p) u before after)
    (hshows' : Shows t (t.displayed q) u' before' after') :
    Crosses t p q ∧ before'.length < before.length ∨
    ¬ Crosses t p q ∧ before.length ≤ before'.length := by
  induction p generalizing t q before after before' after' with
  | nil =>
      cases hshows
      exact .inr ⟨nofun, Nat.zero_le _⟩
  | cons key p ih =>
      cases q with
      | nil => cases hlt
      | cons key' q =>
          obtain ⟨⟨k, c⟩, hc, hrest⟩ := Option.bind_eq_some_iff.1 hp
          obtain ⟨⟨k', c'⟩, hc', hrest'⟩ := Option.bind_eq_some_iff.1 hq
          obtain rfl : k = key := by simpa using List.find?_some hc
          obtain rfl : k' = key' := by simpa using List.find?_some hc'
          have hmem := List.mem_of_find?_eq_some hc
          have hmem' := List.mem_of_find?_eq_some hc'
          cases hnamed : t.isNamedRecord with
          | true =>
              rw [displayed, hnamed] at hshows
              cases hshows
              exact .inr ⟨not_crosses_named hnamed, Nat.zero_le _⟩
          | false =>
              rw [displayed_cons hnamed hc] at hshows
              rw [displayed_cons hnamed hc'] at hshows'
              rw [List.compare_cons_cons, Ordering.then_eq_lt] at hlt
              rcases hlt with hlt | ⟨heq, hlt⟩
              · exact before_cases_apart ht hnamed hmem hmem' hlt p q hshows hshows'
              · -- both go on in one component
                obtain rfl : k = k' := Std.LawfulEqCmp.eq_of_compare heq
                cases hc.symm.trans hc'
                obtain ⟨lead, inner, rest, inner', rest', hinner, hinner', rfl, rfl⟩ :=
                  hshows.tail ht.keysApart (mem_components_of_children hnamed hmem) hshows'
                rw [crosses_cons_iff ht.keysApart hnamed hmem, String.length_append,
                  String.length_append, Nat.add_lt_add_iff_left, Nat.add_le_add_iff_left]
                exact ih (ht.child hmem) hrest hrest' hlt hinner hinner'

/-! ## Few slots -/

/-- Whether no function, constructor or variable inside a type has more than nine
slots. -/
def Narrow (t : Ty) : Prop :=
  ∀ u, Inside t u → u.isRecord = false → u.children.length ≤ 9

theorem Narrow.child (ht : t.Narrow) (hc : (key, c) ∈ t.children) : c.Narrow :=
  fun u hinside => ht u ((Inside.self.child hc).trans hinside)

theorem length_keyed (n : Nat) (ts : List Ty) : (keyed n ts).length = ts.length := by
  induction ts generalizing n with
  | nil => rfl
  | cons t ts ih => exact congrArg Nat.succ (ih (n + 1))

theorem slot_le_length (ht : t.isRecord = false) {m : Nat}
    (hc : (paramKey m, c) ∈ t.children) :
    m ≤ t.children.length := by
  obtain ⟨⟨ts, hts⟩, _⟩ := exists_slots ht
  rw [hts] at hc ⊢
  obtain ⟨i, hi, heq⟩ := mem_keyed.1 hc
  have hlt := (List.getElem?_eq_some_iff.1 hi).1
  have hm := paramKey_inj.1 heq
  rw [length_keyed]
  omega

/-- With one digit, numbers are ordered as their texts are. -/
theorem compare_paramKey {m n : Nat} (hm : m ≤ 9) (hn : n < m) :
    compare (paramKey m) (paramKey n) = .gt := by
  have hall : ∀ m < 10, ∀ n < m, compare (paramKey m) (paramKey n) = .gt := by decide +kernel
  exact hall m (by omega) n hn

theorem Narrow.not_crosses {v v' : Ty} (ht : t.Narrow) (hkeys : t.KeysApart)
    (hp : t.at? p = some v) (hq : t.at? q = some v') (hlt : compare p q = .lt) :
    ¬ Crosses t p q := by
  intro hcrosses
  induction hcrosses with
  | @here t m n p q slots later =>
      obtain ⟨⟨k, c⟩, hc, _⟩ := Option.bind_eq_some_iff.1 hp
      obtain rfl : k = paramKey m := by simpa using List.find?_some hc
      have hslots := slot_le_length slots (List.mem_of_find?_eq_some hc)
      have hnine := ht t .self slots
      rw [List.compare_cons_cons, compare_paramKey (by omega) later] at hlt
      cases hlt
  | @inside t c key p q shown mem crosses ih =>
      have hfind := find?_of_nodup hkeys.nodup_children mem
      have hself : compare key key = .eq := Std.ReflCmp.compare_self
      rw [at?, hfind] at hp hq
      rw [List.compare_cons_cons, hself] at hlt
      exact ih (ht.child mem) (hkeys.child mem) hp hq hlt

end Ty

namespace Signature

variable {s : Signature} {l l' : Locus}

/-- Whether two positions part at two slots of one type that is displayed, the first at
the later slot. -/
def Crosses (s : Signature) (l l' : Locus) : Prop :=
  l.index = l'.index ∧ ∃ t, s.types[l.index]? = some t ∧ t.Crosses l.path l'.path

/-- Whether a position is displayed no further right than another. -/
def Ascends (s : Signature) (l l' : Locus) : Prop :=
  ∃ span span', s.span? l = some span ∧ s.span? l' = some span' ∧ span.start ≤ span'.start

/-- Whether a position is displayed further right than another. -/
def Descends (s : Signature) (l l' : Locus) : Prop :=
  ∃ span span', s.span? l = some span ∧ s.span? l' = some span' ∧ span'.start < span.start

theorem compare_locus (hlt : compare l l' = .lt) :
    l.index < l'.index ∨ l.index = l'.index ∧ compare l.path l'.path = .lt := by
  have hlex : ((compare l.index l'.index).then (compare l.path l'.path)) = .lt := hlt
  rw [Ordering.then_eq_lt] at hlex
  rcases hlex with hindex | ⟨hindex, hpath⟩
  · exact .inl (Nat.compare_eq_lt.1 hindex)
  · exact .inr ⟨Nat.compare_eq_eq.1 hindex, hpath⟩

theorem keysApart_functionType (hkeys : ∀ t ∈ s.types, t.KeysApart) :
    s.functionType.KeysApart := by
  refine Ty.eachRecord_of_children nofun fun key u hu => ?_
  obtain ⟨i, hi, _⟩ := Ty.mem_keyed.1 hu
  exact hkeys u (List.mem_of_getElem? hi)

theorem mem_components_functionType {i : Nat} {t : Ty} (ht : s.types[i]? = some t) :
    (Ty.paramKey (i + 1), t) ∈ s.functionType.components :=
  Ty.mem_components_of_children rfl (Ty.mem_keyed.2 ⟨i, ht, by rw [Nat.add_comm]⟩)

/-- Types stand in the order of their positions. -/
theorem ascends_of_index_lt (hkeys : ∀ t ∈ s.types, t.KeysApart) {v v' : Ty}
    (hl : s.typeAt? l = some v) (hl' : s.typeAt? l' = some v')
    (hlt : l.index < l'.index) :
    s.Ascends l l' := by
  obtain ⟨t, ht, _⟩ := exists_of_typeAt? hl
  obtain ⟨t', ht', _⟩ := exists_of_typeAt? hl'
  obtain ⟨u, before, after, _, _, ⟨lead, rfl, hshows⟩, hspan⟩ := span?_eq hkeys hl
  obtain ⟨u', before', after', _, _, ⟨lead', rfl, hshows'⟩, hspan'⟩ := span?_eq hkeys hl'
  refine ⟨_, _, hspan, hspan', ?_⟩
  rw [displayed_eq ht] at hshows
  rw [displayed_eq ht'] at hshows'
  have hne : Ty.paramKey (l.index + 1) ≠ Ty.paramKey (l'.index + 1) := by
    rw [Ne, Ty.paramKey_inj]
    omega
  rcases ordered_of_mem (mem_components_functionType ht) (mem_components_functionType ht') hne with
    ⟨xs, ys, zs, horder⟩ | ⟨xs, ys, zs, horder⟩
  · have hbefore := hshows.before_lt (keysApart_functionType hkeys) horder hshows'
    simp only [Ty.spanBetween, String.length_append]
    omega
  · obtain ⟨i, j, hi, hj, hij⟩ := Ty.keyed_order horder
    rw [Ty.paramKey_inj] at hi hj
    omega

/-- Of two positions, the one that comes first is displayed first, unless they cross;
then it is displayed behind the other. -/
theorem order_cases (hfields : ∀ t ∈ s.types, t.FieldsSorted) {v v' : Ty}
    (hl : s.typeAt? l = some v) (hl' : s.typeAt? l' = some v')
    (hlt : compare l l' = .lt) :
    s.Crosses l l' ∧ s.Descends l l' ∨ ¬ s.Crosses l l' ∧ s.Ascends l l' := by
  have hkeys : ∀ t ∈ s.types, t.KeysApart := fun t ht => (hfields t ht).keysApart
  rcases compare_locus hlt with hindex | ⟨hindex, hpath⟩
  · refine .inr ⟨fun hcrosses => ?_, ascends_of_index_lt hkeys hl hl' hindex⟩
    have := hcrosses.1
    omega
  · obtain ⟨t, ht, hat⟩ := exists_of_typeAt? hl
    obtain ⟨t', ht', hat'⟩ := exists_of_typeAt? hl'
    obtain ⟨u, before, after, _, _, ⟨lead, rfl, hshows⟩, hspan⟩ := span?_eq hkeys hl
    obtain ⟨u', before', after', _, _, ⟨lead', rfl, hshows'⟩, hspan'⟩ := span?_eq hkeys hl'
    rw [displayed_eq ht] at hshows
    rw [displayed_eq ht'] at hshows'
    obtain rfl : t = t' := by
      rw [hindex] at ht
      exact Option.some.inj (ht.symm.trans ht')
    rw [Locus.keys, ← hindex] at hshows'
    obtain ⟨lead, inner, rest, inner', rest', hinner, hinner', rfl, rfl⟩ :=
      hshows.tail (keysApart_functionType hkeys) (mem_components_functionType ht) hshows'
    have hcrosses : s.Crosses l l' ↔ t.Crosses l.path l'.path := by
      constructor
      · intro ⟨_, u, hu, hcrosses⟩
        cases ht.symm.trans hu
        exact hcrosses
      · exact fun hcrosses => ⟨hindex, t, ht, hcrosses⟩
    rw [hcrosses]
    rcases Ty.before_cases (hfields t (List.mem_of_getElem? ht)) hat hat' hpath hinner hinner' with
      ⟨hcross, hbefore⟩ | ⟨hcross, hbefore⟩
    · refine .inl ⟨hcross, _, _, hspan, hspan', ?_⟩
      simp only [Ty.spanBetween, String.length_append]
      omega
    · refine .inr ⟨hcross, _, _, hspan, hspan', ?_⟩
      simp only [Ty.spanBetween, String.length_append]
      omega

theorem ascends_of_narrow (hfields : ∀ t ∈ s.types, t.FieldsSorted)
    (hnarrow : ∀ t ∈ s.types, t.Narrow) {v v' : Ty} (hl : s.typeAt? l = some v)
    (hl' : s.typeAt? l' = some v') (hlt : compare l l' = .lt) : s.Ascends l l' := by
  rcases order_cases hfields hl hl' hlt with ⟨⟨hindex, t, ht, hcrosses⟩, _⟩ | ⟨_, hascends⟩
  · obtain ⟨u, hu, hat⟩ := exists_of_typeAt? hl
    obtain ⟨u', hu', hat'⟩ := exists_of_typeAt? hl'
    cases ht.symm.trans hu
    rw [← hindex] at hu'
    cases ht.symm.trans hu'
    have hmem := List.mem_of_getElem? ht
    rcases compare_locus hlt with hne | ⟨_, hpath⟩
    · omega
    · exact absurd hcrosses ((hnarrow t hmem).not_crosses (hfields t hmem).keysApart hat hat' hpath)
  · exact hascends

end Signature

/-! ## Failures in order -/

/-- Whether the positions of a failure come in their order. -/
def Failure.Sorted (f : Failure) : Prop :=
  f.loci.Pairwise fun l l' => compare l l' = .lt

theorem Bindings.sorted_observations (b : Bindings) (name : String) :
    ((b.observations name).map (·.1)).Pairwise fun l l' => compare l l' = .lt := by
  rw [observations]
  cases b.find? name with
  | none => exact .nil
  | some binding => exact List.pairwise_map.2 binding.observations.sorted

namespace Scope

variable {s : Scope}

/-- What holds of one position, and of those where values have been seen for a variable,
holds of the positions of a failure. -/
theorem meets_loci {Q : List Locus → Prop} (hone : ∀ l, Q [l])
    (hseen : ∀ (b : Bindings) (name : String) (locus : Locus) (values : List Value),
      Q (((b.observe name locus values).observations name).map (·.1))) (t : Ty) :
    s.Maintains (fun _ => True) (fun f _ => Q f.loci) t := by
  have hinvalid : ∀ (locus : Locus) (v : Value) (t : Ty) (b : Bindings), True →
      Q (Failure.invalidValue locus v t).loci := fun locus _ _ _ _ => hone locus
  refine maintains_of_occurrences hinvalid fun name params _ hparams => maintains_var ?_ hparams
  intro locus values b _
  exact meets_satisfyVariable (fun _ _ _ => hone locus) (fun _ => trivial)
    (fun _ _ _ _ => hone locus)
    (fun _ _ => hseen b name locus values) fun _ _ => trivial

theorem sorted_satisfy {t : Ty} {locus : Locus} {values : List Value} {b : Bindings}
    {f : Failure} (hf : (satisfy s t locus values b).failure? = some f) : f.Sorted :=
  (meets_loci (fun _ => List.pairwise_singleton _ _)
    (fun _ name _ _ => Bindings.sorted_observations _ name) t locus values b trivial).2 f hf

end Scope

theorem Signature.sorted_argumentVerdict {s : Signature} {h : Heap} {env : List Ty}
    {index : Nat} {v : Value} {b : Bindings} {f : Failure}
    (hf : (s.argumentVerdict h env index v b).failure? = some f) : f.Sorted := by
  rw [argumentVerdict] at hf
  split at hf
  · cases hf
    exact .nil
  · exact Scope.sorted_satisfy hf

/-- Whether columns and positions go the same way but where positions cross, and
everywhere if there are few slots. -/
def Signature.Ordered (s : Signature) (loci : List Locus) : Prop :=
  (loci.Pairwise fun l l' =>
    s.Crosses l l' ∧ s.Descends l l' ∨ ¬ s.Crosses l l' ∧ s.Ascends l l') ∧
  ((∀ t ∈ s.types, t.Narrow) → loci.Pairwise s.Ascends)

theorem Signature.ordered_loci {s : Signature} (hfields : ∀ t ∈ s.types, t.FieldsSorted)
    {f : Failure} (hsorted : f.Sorted) (hlocates : s.Locates f) : s.Ordered f.loci := by
  have hat : ∀ l ∈ f.loci, ∃ t, s.typeAt? l = some t := fun l hl => hlocates.typeAt? hl
  constructor
  · refine hsorted.imp_of_mem fun {l l'} hl hl' hlt => ?_
    obtain ⟨t, ht⟩ := hat l hl
    obtain ⟨t', ht'⟩ := hat l' hl'
    exact order_cases hfields ht ht' hlt
  · intro hnarrow
    refine hsorted.imp_of_mem fun {l l'} hl hl' hlt => ?_
    obtain ⟨t, ht⟩ := hat l hl
    obtain ⟨t', ht'⟩ := hat l' hl'
    exact ascends_of_narrow hfields hnarrow ht ht' hlt

/-- Whether an action fails, with an error that has the property. -/
def Action.failsWith {ε α : Type} (p : ε → Bool) (m : Action ε α) (w : World) : Bool :=
  match m w with
  | .failed e _ => p e
  | _ => false

theorem Action.exists_failed_of_failsWith {ε α : Type} {p : ε → Bool} {m : Action ε α}
    {w : World} (hfails : failsWith p m w = true) :
    ∃ e w', m w = .failed e w' ∧ p e = true := by
  unfold failsWith at hfails
  split at hfails
  · next e w' hfailed => exact ⟨e, w', hfailed, hfails⟩
  · cases hfails

namespace Session

variable {s : Session} {w : World}

theorem Raises.sorted {f : Failure} (hf : s.Raises w f) : f.Sorted := by
  cases hf with
  | argument failure => exact Signature.sorted_argumentVerdict failure
  | result failure => exact Scope.sorted_satisfy failure
  | callback _ _ _ failure => exact Scope.sorted_satisfy failure
  | count => exact List.pairwise_singleton _ _

theorem Reports.ordered (hfields : ∀ t ∈ s.signature.types, t.FieldsSorted)
    (hused : s.Used w) {d : Diagnostic} (hd : s.Reports w d) :
    s.signature.Ordered d.positions := by
  obtain ⟨w₁, f, hrun, hf, rfl⟩ := hd
  have hlocates := (hused.run hrun).locates_of_raises (fun t ht => (hfields t ht).keysApart) hf
  exact Signature.ordered_loci hfields hf.sorted hlocates

/-- However a session is used, the positions of a diagnostic that a check on it or on
one of its callbacks fails with, and so the numbered blocks of the report, go by columns
as far as they do not cross: each is displayed no further right than one after it,
unless the two part at two slots of one displayed type and the later slot comes first,
since its number is smaller as a text; then it is displayed further right. If no type
inside the signature has more than nine slots, then columns never decrease. The same
holds of the arguments that a function takes one after the other before there is a
session. -/
theorem Used.positions_ordered (hfields : ∀ t ∈ s.signature.types, t.FieldsSorted)
    (hused : s.Used w) :
    (∀ index v d w', s.checkArgument index v w = .failed d w' → s.signature.Ordered d.positions) ∧
    (∀ v d w', s.checkResult v w = .failed d w' → s.signature.Ordered d.positions) ∧
    (∀ c : Contract, .guarded c ∈ w.code → c.session.state = s.state → ∀ depth args d w',
      c.call (callFunction depth) args w = .failed d w' → s.signature.Ordered d.positions ∨
        ∃ args' w₁, s.Used w₁ ∧ callFunction depth c.inner args' w₁ = .failed d w') ∧
    ∀ b, s.signature.Learned s.env b → ∀ h index v f,
      (s.signature.argumentVerdict h s.env index v b).failure? = some f →
      s.signature.Ordered (f.diagnostic h s.signature s.env).positions := by
  have hkeys : ∀ t ∈ s.signature.types, t.KeysApart := fun t ht => (hfields t ht).keysApart
  have hm := Signature.maintains_at hkeys s.env
  have hk := hused.keeps hm
  refine ⟨fun index v d w' hfailed => ?_, fun v d w' hfailed => ?_,
    fun c hc hstate depth args d w' hfailed => ?_, fun b hb h index v f hf => ?_⟩
  · obtain ⟨f, hf, hd⟩ := conclude_failed hfailed
    exact Reports.ordered hfields hused ⟨w, f, .refl w, .argument hf, hd⟩
  · obtain ⟨f, hf, hd⟩ := conclude_failed (checkResult_eq_failed hfailed)
    exact Reports.ordered hfields hused ⟨w, f, .refl w, .result hf, hd⟩
  · have hown := (hk.contracts c hc hstate).1
    exact (Contract.call_failed hused hk.kept hown hc hfailed).imp_left
      (Reports.ordered hfields hused)
  · exact Signature.ordered_loci hfields (Signature.sorted_argumentVerdict hf)
      (Signature.locates_argument hkeys (hb.known hm) hf)

/-- Ten slots, with one variable in the second and in the last. -/
def tenSlots : List Ty :=
  [.any, .var "a" [], .any, .any, .any, .any, .any, .any, .any, .var "a" []]

/-- A session on a function of one parameter and any result, with booleans and null for
types. -/
def takes (t : Ty) : Session :=
  ⟨⟨"f", ∅, [t], .any, by simp [maxArity]⟩, [Builtin.boolean, Builtin.null], 0⟩

theorem fieldsSorted_takes {t : Ty} (ht : t.isRecord = false)
    (hchildren : t.children = Ty.keyed 1 tenSlots) :
    ∀ u ∈ (takes t).signature.types, u.FieldsSorted := by
  have hany : Ty.any.FieldsSorted := Ty.eachRecord_of_children nofun nofun
  have hvar : (Ty.var "a" []).FieldsSorted := Ty.eachRecord_of_children nofun nofun
  have hslots : ∀ u ∈ tenSlots, u.FieldsSorted := by
    simp only [tenSlots, List.forall_mem_cons]
    exact ⟨hany, hvar, hany, hany, hany, hany, hany, hany, hany, hvar, nofun⟩
  have hwhole : t.FieldsSorted := by
    refine Ty.eachRecord_of_children (fun r supers fields heq => ?_) fun key u hu => ?_
    · rw [heq] at ht
      cases ht
    · rw [hchildren] at hu
      obtain ⟨i, hi, _⟩ := Ty.mem_keyed.1 hu
      exact hslots u (List.mem_of_getElem? hi)
  simpa [takes, Signature.types] using ⟨hwhole, hany⟩

/-- A constructor with ten parameters. Its values hold a boolean at the second and null
at the last. -/
def tenfold : Ty :=
  let nothing : Extractor := fun _ _ => []
  .con ⟨"Tenfold", "", fun _ _ => true, [nothing, fun _ _ => [.bool true], nothing, nothing,
    nothing, nothing, nothing, nothing, nothing, fun _ _ => [.null]]⟩ [] tenSlots

/-- The last parameter comes first and is displayed behind the second. -/
theorem Used.positions_ordered_ten :
    ∃ (s : Session) (w w' : World) (v : Value) (d : Diagnostic),
      (∀ t ∈ s.signature.types, t.FieldsSorted) ∧ s.Used w ∧
      s.checkArgument 0 v w = .failed d w' ∧ d.positions = [⟨0, ["$10"]⟩, ⟨0, ["$2"]⟩] ∧
      s.signature.Crosses ⟨0, ["$10"]⟩ ⟨0, ["$2"]⟩ ∧
      s.signature.Descends ⟨0, ["$10"]⟩ ⟨0, ["$2"]⟩ := by
  let w : World := ⟨.empty, #[], #[default], ∅⟩
  have hfields := fieldsSorted_takes (t := tenfold) rfl rfl
  have hused : (takes tenfold).Used w :=
    .start (w := ⟨.empty, #[], #[], ∅⟩) (fun c hc => by simp at hc) .nothing rfl
  obtain ⟨d, w', hfailed, hd⟩ := Action.exists_failed_of_failsWith
    (p := fun d : Diagnostic => d.positions == [⟨0, ["$10"]⟩, ⟨0, ["$2"]⟩])
    (m := (takes tenfold).checkArgument 0 .null) (w := w) (by decide +kernel)
  have hpositions := beq_iff_eq.1 hd
  have hordered := ((hused.positions_ordered hfields).1 0 .null d w' hfailed).1
  rw [hpositions, List.pairwise_cons] at hordered
  have hcrosses : (takes tenfold).signature.Crosses ⟨0, [Ty.paramKey 10]⟩ ⟨0, [Ty.paramKey 2]⟩ :=
    ⟨rfl, tenfold, rfl, .here rfl (by decide)⟩
  rcases hordered.1 ⟨0, ["$2"]⟩ (by simp) with ⟨_, hdescends⟩ | ⟨hnot, _⟩
  · exact ⟨takes tenfold, w, w', .null, d, hfields, hused, hfailed, hpositions, hcrosses, hdescends⟩
  · exact absurd hcrosses hnot

/-- A callback with nine parameters gets a boolean at the second and gives null, of
which both are of one type. Both are reported, first the result and then the parameter,
which is displayed before it. -/
theorem not_ascends :
    ∃ (s : Session) (w w' : World) (c : Contract) (args : List Value) (d : Diagnostic),
      (∀ t ∈ s.signature.types, t.FieldsSorted) ∧ s.Used w ∧ .guarded c ∈ w.code ∧
      c.session = s ∧ c.call (callFunction 1) args w = .failed d w' ∧
      d.category = .typeVariableViolation ∧ ¬ d.positions.Pairwise s.signature.Ascends := by
  let s := takes (.function tenSlots)
  let c : Contract := ⟨s, .root 0, tenSlots.dropLast, .var "a" [], 0⟩
  let w₀ : World := ⟨.empty, #[.host ⟨.arg 0 0, []⟩], #[default], ∅⟩
  let w : World := { w₀ with code := w₀.code.push (.guarded c) }
  let args : List Value := [.null, .bool true, .null, .null, .null, .null, .null, .null, .null]
  have hused : s.Used w :=
    .use (.start (w := { w₀ with sessions := #[] }) (fun c hc => by simp [w₀] at hc) .nothing rfl)
      (.wrap s (fun _ => rfl) (by decide) 0 [.function 0 ⟨"g", 9, none⟩] (.inl ⟨_, rfl⟩))
  obtain ⟨d, w', hfailed, hd⟩ := Action.exists_failed_of_failsWith
    (p := fun d : Diagnostic => d.category == .typeVariableViolation &&
      d.positions == [⟨0, ["$10"]⟩, ⟨0, ["$2"]⟩])
    (m := c.call (callFunction 1) args) (w := w) (by decide +kernel)
  rw [Bool.and_eq_true, beq_iff_eq, beq_iff_eq] at hd
  have hfirst : s.signature.span? ⟨0, ["$10"]⟩ = some ⟨67, 68⟩ := by decide +kernel
  have hsecond : s.signature.span? ⟨0, ["$2"]⟩ = some ⟨13, 14⟩ := by decide +kernel
  refine ⟨s, w, w', c, args, d, fieldsSorted_takes rfl rfl, hused, by simp [w], rfl, hfailed, hd.1,
    fun hpairwise => ?_⟩
  rw [hd.2, List.pairwise_cons] at hpairwise
  obtain ⟨span, span', hspan, hspan', hle⟩ := hpairwise.1 ⟨0, ["$2"]⟩ (by simp)
  cases hfirst.symm.trans hspan
  cases hsecond.symm.trans hspan'
  exact absurd hle (by decide)

end Session

end DynamicTypes
