/-
  Calls that are refused.

  Values are mapped one after the other, so a wildcard that is refused at a value
  has mapped those before it (`Group.StopsAt`), while every other call is checked
  before it changes anything.

  * `Group.insertWildcard_eq_error` says why a wildcard is refused and what it leaves;
  * `Store.refused_keeps_iff`: a refused call changes the store exactly if it is a
    wildcard whose first constant is new in its scope;
  * `refused_wildcard_maps` is such a call.
-/
import ConstRestore.Proofs.Growth
import ConstRestore.Proofs.Scopes

namespace ConstRestore

variable {r : Registry}

theorem Table.setEntries_of_lookup_eq_none {κ α : Type} [BEq κ] {k : κ} {a : α}
    {es : List (κ × α)} (h : es.lookup k = none) : setEntries k a es = es ++ [(k, a)] := by
  fun_induction setEntries k a es with
  | case1 => rfl
  | case2 k' b es hk => simp [List.lookup_cons, hk] at h
  | case3 k' b es hk ih =>
    rw [List.lookup_cons, Bool.eq_false_iff.2 hk] at h
    rw [ih h, List.cons_append]

/-- A key that is not there goes to the end. -/
theorem Table.entries_set {κ α : Type} [BEq κ] [LawfulBEq κ] {t : Table κ α} {k : κ}
    (h : t.get? k = none) (a : α) : (t.set k a).entries = t.entries ++ [(k, a)] :=
  setEntries_of_lookup_eq_none h

namespace Group

variable {g g' g'' : Group} {scope : Scope} {strict : Bool} {e : GroupError}

/-! ## Additions -/

/-- A group with more entries at the end of one scope. -/
structure Adds (scope : Scope) (added : List (Value × Mapping)) (g g' : Group) : Prop where
  key : g'.key = g.key
  dataType : g'.dataType = g.dataType
  flags : g'.flags = g.flags
  entries : (g'.table scope).entries = (g.table scope).entries ++ added
  others : ∀ scope' ≠ scope, g'.table scope' = g.table scope'

variable {added added' : List (Value × Mapping)}

theorem Adds.trans (h : g.Adds scope added g') (h' : g'.Adds scope added' g'') :
    g.Adds scope (added ++ added') g'' where
  key := h'.key.trans h.key
  dataType := h'.dataType.trans h.dataType
  flags := h'.flags.trans h.flags
  entries := by rw [h'.entries, h.entries, List.append_assoc]
  others scope' hne := (h'.others scope' hne).trans (h.others scope' hne)

theorem Adds.refl (g : Group) (scope : Scope) : g.Adds scope [] g :=
  ⟨rfl, rfl, rfl, (List.append_nil _).symm, fun _ _ => rfl⟩

theorem adds_setTable {t : Mappings} (ht : t.entries = (g.table scope).entries ++ added) :
    g.Adds scope added (g.setTable scope t) := by
  refine ⟨rfl, rfl, rfl, ?_, ?_⟩
  · rw [get?_table_setTable, if_pos rfl, ht]
  · intro scope' hne
    rw [get?_table_setTable, if_neg hne]

/-- Nothing has changed if nothing was added. -/
theorem Adds.agreesOn_iff (h : g.Adds scope added g') : g.AgreesOn Set.univ g' ↔ added = [] := by
  constructor
  · intro hagrees
    have hentries := h.entries
    rw [hagrees.table scope (Set.mem_univ _)] at hentries
    exact List.self_eq_append_right.1 hentries
  · rintro rfl
    refine ⟨h.dataType, h.flags, fun scope' _ => ?_⟩
    by_cases hscope : scope' = scope
    · subst hscope
      have hentries := h.entries
      rw [List.append_nil] at hentries
      generalize g'.table scope' = t', g.table scope' = t at hentries
      cases t
      cases t'
      cases hentries
      rfl
    · exact h.others scope' hscope

/-! ## Mapping values -/

theorem insertKey_eq_ok {key : Value} {entry : Mapping} (h : g.insertKey scope key entry = .ok g') :
    (g.table scope).get? key = none ∧ g.Adds scope [(key, entry)] g' := by
  simp only [insertKey] at h
  split_ifs at h with hnew
  obtain rfl := Except.ok.inj h
  have hnone : (g.table scope).get? key = none := by simpa [Table.contains] using hnew
  exact ⟨hnone, adds_setTable (Table.entries_set hnone entry)⟩

theorem insertKey_eq_error {key : Value} {entry : Mapping}
    (h : g.insertKey scope key entry = .error e) :
    (g.table scope).contains key ∧ e = .duplicate g.key scope key := by
  simp only [insertKey] at h
  split_ifs at h with hmapped
  exact ⟨hmapped, (Except.error.inj h).symm⟩

/-- Values were mapped one after the other, up to one that is mapped already. -/
structure StopsAt (scope : Scope) (strict : Bool) (entries : List (Value × Expr))
    (kept : List (Value × Expr)) (key : Value) (g g' : Group) : Prop where
  split : ∃ expr rest, entries = kept ++ (key, expr) :: rest
  adds : g.Adds scope (kept.map fun (key, expr) => (key, ⟨strict, expr⟩)) g'
  mapped : (g'.table scope).contains key

variable {entries kept : List (Value × Expr)} {key : Value}

/-- Nothing was mapped exactly if the first value was mapped before. -/
theorem StopsAt.kept_eq_nil_iff (h : g.StopsAt scope strict entries kept key g') :
    kept = [] ↔ ∀ p ∈ entries.head?, (g.table scope).contains p.1 := by
  obtain ⟨expr, rest, rfl⟩ := h.split
  have hentries := h.adds.entries
  cases kept with
  | nil =>
    have hmapped := h.mapped
    rw [List.map_nil, List.append_nil] at hentries
    rw [Table.contains, Table.get?, hentries] at hmapped
    simpa [Table.contains, Table.get?] using hmapped
  | cons p kept =>
    -- a first value that was kept is in the table twice if it was mapped before
    have hnodup := (g'.table scope).distinct
    rw [hentries, List.map_append, List.nodup_append] at hnodup
    refine iff_of_false (List.cons_ne_nil p kept) fun hmapped => ?_
    obtain ⟨entry, hentry⟩ := Option.isSome_iff_exists.1 (hmapped p (by simp))
    exact hnodup.2.2 p.1 (Table.mem_keys_of_get? hentry) p.1 (by simp) rfl

theorem insertAll_eq_error {n : Nat}
    (h : (g.insertAll scope strict entries n).2 = .error e) :
    ∃ kept key, g.StopsAt scope strict entries kept key (g.insertAll scope strict entries n).1 ∧
      e = .duplicate g.key scope key := by
  induction entries generalizing g n with
  | nil => cases h
  | cons p entries ih =>
    obtain ⟨key, expr⟩ := p
    rw [insertAll] at h ⊢
    cases hinsert : g.insertKey scope key ⟨strict, expr⟩ with
    | error e' =>
      rw [hinsert] at h
      cases h
      obtain ⟨hmapped, rfl⟩ := insertKey_eq_error hinsert
      exact ⟨[], key, ⟨⟨expr, entries, rfl⟩, .refl g scope, hmapped⟩, rfl⟩
    | ok g₁ =>
      rw [hinsert] at h
      obtain ⟨-, hadds⟩ := insertKey_eq_ok hinsert
      obtain ⟨kept, key', hstops, rfl⟩ := ih h
      obtain ⟨expr', rest, rfl⟩ := hstops.split
      refine ⟨(key, expr) :: kept, key', ⟨⟨expr', rest, rfl⟩, hadds.trans hstops.adds,
        hstops.mapped⟩, by rw [hadds.key]⟩

/-! ## Inserting expressions -/

/-- What a wildcard stands for, by the names of the constants. -/
def expansions (r : Registry) (g : Group) (wildcard : FieldRef) : List (Value × Expr) :=
  ((r.constants? wildcard.owner).getD []).filterMap fun (name, c) => g.expansion? wildcard name c

/-- A wildcard is refused if its class is not known, or else at a value that is
    mapped already. -/
theorem insertWildcard_eq_error {f : FieldRef}
    (h : (g.insertWildcard r scope strict f).2 = .error e) :
    g.expansions r f = [] ∧ (g.insertWildcard r scope strict f).1 = g ∨
      ∃ kept key, g.StopsAt scope strict (g.expansions r f) kept key
        (g.insertWildcard r scope strict f).1 ∧ e = .duplicate g.key scope key := by
  unfold insertWildcard expansions at *
  cases hall : r.constants? f.owner with
  | none => exact .inl ⟨rfl, rfl⟩
  | some all =>
    rw [hall] at h
    obtain ⟨kept, key, hstops, rfl⟩ := insertAll_eq_error h
    -- the scope got its table before
    have hself : g.Adds scope [] (g.setTable scope (g.table scope)) :=
      adds_setTable (List.append_nil _).symm
    exact .inr ⟨kept, key, ⟨hstops.split, hself.trans hstops.adds, hstops.mapped⟩, rfl⟩

theorem insertExpr_wildcard {f : FieldRef} (hf : f.isWildcard) :
    g.insertExpr r scope strict (.field f) = g.insertWildcard r scope strict f := by
  rw [insertExpr, if_pos hf]

/-- A single expression is checked before it is mapped. -/
theorem insertExpr_eq_error {expr : Expr} (hexpr : ∀ f, expr = .field f → ¬f.isWildcard)
    (h : (g.insertExpr r scope strict expr).2 = .error e) :
    (g.insertExpr r scope strict expr).1 = g := by
  unfold insertExpr at h ⊢
  cases hsingle : (expr.evaluate r).mapError GroupError.eval >>= (g.insert scope · strict expr) with
  | error e' =>
    cases expr with
    | field f => exact congrArg Prod.fst (if_neg (hexpr f rfl))
    | _ => rfl
  | ok g' =>
    -- the mapping succeeds
    rw [hsingle] at h
    cases expr with
    | field f => cases (congrArg Prod.snd (if_neg (hexpr f rfl))).symm.trans h
    | _ => cases h

end Group

/-! ## Calls -/

namespace Store

/-- Stores that calls and bindings lead to. -/
inductive Reachable : Store → Prop
  | empty : Reachable .empty
  | after {s : Store} (h : Reachable s) (r : Registry) (call : BuildStep) : Reachable (s.after r call)
  | bind {s : Store} (h : Reachable s) (t : Bindings) : Reachable { s with bindings := t }

/-- A call fails with an error. -/
inductive Refuses (r : Registry) (s : Store) : BuildStep → GroupError → Prop
  | declare {name : String} {type : DataType} {flags : Bool} {e : GroupError}
    (h : s.declare name type flags = .error e) : Refuses r s (.declare name type flags) e
  | insert {k : GroupKey} {g : Group} {scope : Scope} {value : Value} {strict : Bool} {expr : Expr}
    {e : GroupError} (hg : s.group? k = some g) (h : g.insert scope value strict expr = .error e) :
    Refuses r s (.insert k scope value strict expr) e
  | insertExpr {k : GroupKey} {g : Group} {scope : Scope} {strict : Bool} {expr : Expr}
    {e : GroupError} (hg : s.group? k = some g)
    (h : (g.insertExpr r scope strict expr).2 = .error e) :
    Refuses r s (.insertExpr k scope strict expr) e

/-- A call is a wildcard whose first constant is new in its scope. -/
inductive ExpandsNew (r : Registry) (s : Store) : BuildStep → Prop
  | insertExpr {k : GroupKey} {g : Group} {scope : Scope} {strict : Bool} {f : FieldRef}
    {p : Value × Expr} (hf : f.isWildcard) (hg : s.group? k = some g)
    (hfirst : (g.expansions r f).head? = some p) (hnew : (g.table scope).get? p.1 = none) :
    ExpandsNew r s (.insertExpr k scope strict (.field f))

variable {s : Store} {k : GroupKey} {g : Group} {call : BuildStep} {e : GroupError}

theorem Reachable.wellFormed (h : s.Reachable) : s.WellFormed := by
  induction h with
  | empty =>
    intro k g hg
    cases hg
  | after _ r call ih => exact (wellFormed_after r ih call).1
  | bind _ t ih => exact ih

theorem Reachable.build (h : s.Reachable) (r : Registry) (steps : List BuildStep) :
    (s.build r steps).Reachable := by
  induction steps generalizing s with
  | nil => exact h
  | cons step steps ih => exact ih (h.after r step)

/-- A call on a group leaves the store as it was exactly if it does so with the group. -/
theorem agreesOn_modify_iff {scopes : Set Scope} (hs : s.WellFormed) (hg : s.group? k = some g)
    {f : Group → Group} (hf : (f g).key = g.key) :
    s.AgreesOn scopes (s.modify k f) ↔ g.AgreesOn scopes (f g) := by
  have hkey : s.group? (f g).key = some g := by rw [hf, (hs k g hg).1, hg]
  rw [modify, hg, Option.elim_some, AgreesOn.setGroup_iff hkey]

/-- A refused wildcard leaves the store as it was exactly if its first constant is not new. -/
theorem wildcard_keeps_iff (hs : s.WellFormed) (hg : s.group? k = some g) {scope : Scope}
    {strict : Bool} {f : FieldRef} (hf : f.isWildcard)
    (h : (g.insertWildcard r scope strict f).2 = .error e) :
    s.AgreesOn Set.univ (s.after r (.insertExpr k scope strict (.field f))) ↔
      ¬s.ExpandsNew r (.insertExpr k scope strict (.field f)) := by
  have hkeeps : g.AgreesOn Set.univ (g.insertWildcard r scope strict f).1 ↔
      ∀ p ∈ (g.expansions r f).head?, (g.table scope).contains p.1 := by
    rcases Group.insertWildcard_eq_error h with ⟨hnone, hsame⟩ | ⟨kept, key, hstops, -⟩
    · rw [hsame, hnone]
      exact iff_of_true (.refl g) (by simp)
    · rw [hstops.adds.agreesOn_iff, List.map_eq_nil_iff, hstops.kept_eq_nil_iff]
  have hextends := Group.extends_insertExpr r g scope strict (.field f)
  rw [after, agreesOn_modify_iff hs hg hextends.key, Group.insertExpr_wildcard hf, hkeeps]
  constructor
  · rintro hall ⟨-, hg', hfirst, hnew⟩
    obtain rfl := Option.some.inj (hg.symm.trans hg')
    simpa [Table.contains, hnew] using hall _ hfirst
  · intro hold p hp
    by_contra hnew
    exact hold ⟨hf, hg, hp, by simpa [Table.contains] using hnew⟩

/-- A refused wildcard whose first constant is new in the scope has mapped its constants up to
    the one that it was refused at. -/
theorem exists_stopsAt (hs : s.WellFormed) (h : s.Refuses r call e) (hnew : s.ExpandsNew r call) :
    ∃ k scope strict f g kept key g', call = .insertExpr k scope strict (.field f) ∧
      s.group? k = some g ∧ g.StopsAt scope strict (g.expansions r f) kept key g' ∧
      e = .duplicate k scope key ∧ s.after r call = s.setGroup g' := by
  cases hnew with
  | @insertExpr k g scope strict f p hf hg hfirst hnew =>
    cases h with
    | insertExpr hg' h =>
      obtain rfl := Option.some.inj (hg.symm.trans hg')
      rw [Group.insertExpr_wildcard hf] at h
      rcases Group.insertWildcard_eq_error h with ⟨hnone, -⟩ | ⟨kept, key, hstops, rfl⟩
      · rw [hnone] at hfirst
        cases hfirst
      · refine ⟨k, scope, strict, f, g, kept, key, _, rfl, hg, hstops, by rw [(hs k g hg).1], ?_⟩
        rw [after, modify, hg, Option.elim_some, Group.insertExpr_wildcard hf]

/-- **What a refused call leaves.**  The store is as it was, unless the call is a wildcard
    whose first constant is new in the scope.  Then the constants up to the one that the
    wildcard is refused at are mapped there, and nothing else has changed. -/
theorem refused_keeps_iff (hs : s.Reachable) (h : s.Refuses r call e) :
    (s.AgreesOn Set.univ (s.after r call) ↔ ¬s.ExpandsNew r call) ∧
    (s.ExpandsNew r call →
      ∃ k scope strict f g kept key g', call = .insertExpr k scope strict (.field f) ∧
        s.group? k = some g ∧ g.StopsAt scope strict (g.expansions r f) kept key g' ∧
        e = .duplicate k scope key ∧ s.after r call = s.setGroup g') := by
  refine ⟨?_, exists_stopsAt hs.wellFormed h⟩
  cases h with
  | @declare name type flags _ h =>
    have hsame : s.after r (.declare name type flags) = s := by rw [after, h]; rfl
    rw [hsame]
    exact iff_of_true (.refl s) (by rintro ⟨⟩)
  | @insert k g scope value strict expr _ hg h =>
    have hsame : (g.insert scope value strict expr).toOption.getD g = g := by rw [h]; rfl
    rw [after, agreesOn_modify_iff hs.wellFormed hg (by rw [hsame]), hsame]
    exact iff_of_true (.refl g) (by rintro ⟨⟩)
  | @insertExpr k g scope strict expr _ hg h =>
    by_cases hwildcard : ∃ f, expr = .field f ∧ f.isWildcard
    · obtain ⟨f, rfl, hf⟩ := hwildcard
      rw [Group.insertExpr_wildcard hf] at h
      exact wildcard_keeps_iff hs.wellFormed hg hf h
    · have hsame := Group.insertExpr_eq_error (fun f he hf => hwildcard ⟨f, he, hf⟩) h
      rw [after, agreesOn_modify_iff hs.wellFormed hg (by rw [hsame]), hsame]
      refine iff_of_true (.refl g) ?_
      rintro ⟨hf, -, -, -⟩
      exact hwildcard ⟨_, rfl, hf⟩

/-- A store with a group that maps one number everywhere. -/
def mapsOne (n : Int32) : Store :=
  Store.empty.build accessRegistry [.declare "g" .int false,
    .insert (.named "g") .global (.int n) false (.literal (.int n))]

theorem reachable_mapsOne (n : Int32) : (mapsOne n).Reachable := Reachable.empty.build ..

/-- A call that maps the values of `p.G.READ = 1` and `p.G.WRITE = 2`. -/
def expandAccess : BuildStep :=
  .insertExpr (.named "g") .global false (.field ⟨"p/G", none, none, true⟩)

theorem refuses_expandAccess {n : Int32} (hn : n = 1 ∨ n = 2) :
    (mapsOne n).Refuses accessRegistry expandAccess (.duplicate (.named "g") .global (.int n)) := by
  rcases hn with rfl | rfl
  · exact .insertExpr rfl (by cbv)
  · exact .insertExpr rfl (by cbv)

/-- Where 1 is mapped already, the wildcard is refused at its first constant. -/
theorem refused_keeps_iff_first :
    (mapsOne 1).AgreesOn Set.univ ((mapsOne 1).after accessRegistry expandAccess) := by
  refine (refused_keeps_iff (reachable_mapsOne 1) (refuses_expandAccess (.inl rfl))).1.2 ?_
  have hmapped : ((mapsOne 1).group? (.named "g")).bind (fun g =>
      (g.expansions accessRegistry ⟨"p/G", none, none, true⟩).head?.map fun p =>
        (g.table .global).contains p.1) = some true := by cbv
  rintro ⟨-, hg, hfirst, hnew⟩
  rw [hg, Option.bind_some, hfirst, Option.map_some, Table.contains, hnew] at hmapped
  cases hmapped

/-- Where 2 is mapped already, the wildcard is refused and 1 is mapped then. -/
theorem refused_wildcard_maps :
    (mapsOne 2).Reachable ∧
    (mapsOne 2).Refuses accessRegistry expandAccess (.duplicate (.named "g") .global (.int 2)) ∧
    (mapsOne 2).mapping? (.named "g") .global (.int 1) = none ∧
    ((mapsOne 2).after accessRegistry expandAccess).mapping? (.named "g") .global (.int 1) =
      some ⟨false, .field ⟨"p/G", some "READ", some .int, true⟩⟩ ∧
    ¬(mapsOne 2).AgreesOn Set.univ ((mapsOne 2).after accessRegistry expandAccess) := by
  have hold : (mapsOne 2).mapping? (.named "g") .global (.int 1) = none := by cbv
  have hnew : ((mapsOne 2).after accessRegistry expandAccess).mapping? (.named "g") .global (.int 1) =
      some ⟨false, .field ⟨"p/G", some "READ", some .int, true⟩⟩ := by cbv
  refine ⟨reachable_mapsOne 2, refuses_expandAccess (.inr rfl), hold, hnew, fun h => ?_⟩
  have hsame := h.mapping?_eq (Set.mem_univ .global) (.named "g") (.int 1)
  rw [hold, hnew] at hsame
  cases hsame

end Store

end ConstRestore
