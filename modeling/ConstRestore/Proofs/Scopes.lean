/-
  Scopes that apply to a method.

  The scopes that enclose a method are its own, that of its class, that of the
  package that the class is directly in, and the global one (`Scope.around`).

  * A table without entries is as good as none (`Group.standIn?_filter_isEmpty`), so
    what stands in for a literal is found in the tables of these scopes, whether
    they were ever set or not (`Group.standIn?_tablesFor`);
  * `Store.AgreesOn` relates stores whose groups differ at most in the tables of
    other scopes; what becomes of a literal is the same for both
    (`Store.AgreesOn.verdict_eq`);
  * `Subject.scopes_decide`: the most specific scope that maps a value decides
    about it, and no scope that does not enclose a method makes a difference to it.
-/
import ConstRestore.Proofs.Admission

namespace ConstRestore

/-! ## Packages -/

/-- A class is in a package itself, not in one below it. -/
def InPackage (package name : String) : Prop :=
  (∃ simple, name = package ++ "/" ++ simple ∧ '/' ∉ simple.toList) ∨
    package = "" ∧ '/' ∉ name.toList

theorem packageOf_of_not_mem {name : String} (h : '/' ∉ name.toList) : packageOf name = "" := by
  have hdrop : name.toList.reverse.dropWhile (· ≠ '/') = [] := by
    refine List.dropWhile_eq_nil_iff.2 fun c hc => ?_
    have hne : c ≠ '/' := fun e => h (e ▸ List.mem_reverse.1 hc)
    simpa using hne
  rw [packageOf, hdrop]
  rfl

theorem packageOf_append {package simple : String} (h : '/' ∉ simple.toList) :
    packageOf (package ++ "/" ++ simple) = package := by
  have hreverse : (package ++ "/" ++ simple).toList.reverse =
      simple.toList.reverse ++ '/' :: package.toList.reverse := by
    simp [String.toList_append]
  have hsimple : ∀ c ∈ simple.toList.reverse, decide (c ≠ '/') = true := by
    intro c hc
    have hne : c ≠ '/' := fun e => h (e ▸ List.mem_reverse.1 hc)
    simpa using hne
  rw [packageOf, hreverse, List.dropWhile_append_of_pos hsimple, List.dropWhile_cons_of_neg (by simp),
    List.tail_cons, List.reverse_reverse, String.ofList_toList]

/-- The package of a class ends at the last slash of its name. -/
theorem packageOf_eq_iff {package name : String} :
    packageOf name = package ↔ InPackage package name := by
  constructor
  · rintro rfl
    by_cases h : '/' ∈ name.toList
    · obtain ⟨simple, above, hsplit, hsimple⟩ :=
        List.eq_append_cons_of_mem (List.mem_reverse.2 h)
      have hname : name = String.ofList above.reverse ++ "/" ++ String.ofList simple.reverse := by
        rw [← String.toList_inj, ← List.reverse_inj, hsplit]
        simp [String.toList_append]
      have hslash : '/' ∉ (String.ofList simple.reverse).toList := by simpa using hsimple
      refine .inl ⟨String.ofList simple.reverse, ?_, hslash⟩
      rw [hname, packageOf_append hslash]
    · exact .inr ⟨packageOf_of_not_mem h, h⟩
  · rintro (⟨simple, rfl, h⟩ | ⟨rfl, h⟩)
    · exact packageOf_append h
    · exact packageOf_of_not_mem h

/-! ## Scopes -/

namespace Scope

/-- The method is in the scope. -/
def Encloses (m : Member) : Scope → Prop
  | global => True
  | package name => InPackage name m.owner
  | class_ name => name = m.owner
  | method owner name descriptor => ⟨owner, name, descriptor⟩ = m

/-- The scopes of a method, the most specific first. -/
def around (m : Member) : List Scope :=
  [.method m.owner m.name m.descriptor, .class_ m.owner, .package (packageOf m.owner), .global]

theorem mem_around_iff {m : Member} {scope : Scope} : scope ∈ around m ↔ scope.Encloses m := by
  cases scope with
  | global => simp [around, Encloses]
  | package name => simp [around, Encloses, ← packageOf_eq_iff, eq_comm]
  | class_ name => simp [around, Encloses]
  | method owner name descriptor => cases m; simp [around, Encloses]

end Scope

/-! ## Tables without entries -/

section Empty

variable {mask : UInt64}

theorem Table.get?_of_isEmpty {κ α : Type} [BEq κ] {t : Table κ α} (h : t.isEmpty) (k : κ) :
    t.get? k = none := by
  rw [get?, List.isEmpty_iff.1 h, List.lookup_nil]

theorem tableFlags_of_isEmpty {t : Mappings} (h : t.isEmpty) : tableFlags mask t = [] := by
  have hentries : t.entries = [] := List.isEmpty_iff.1 h
  simp [tableFlags, hentries]

theorem findSome?_filter_isEmpty (tables : List Mappings) (key : Value) :
    (tables.filter (!·.isEmpty)).findSome? (·.get? key) = tables.findSome? (·.get? key) := by
  induction tables with
  | nil => rfl
  | cons t tables ih =>
    cases h : t.isEmpty with
    | true =>
      rw [List.filter_cons_of_neg (by simp [h]), ih, List.findSome?_cons,
        Table.get?_of_isEmpty h]
    | false => rw [List.filter_cons_of_pos (by simp [h]), List.findSome?_cons, List.findSome?_cons, ih]

theorem flatMap_tableFlags_filter_isEmpty (tables : List Mappings) :
    (tables.filter (!·.isEmpty)).flatMap (tableFlags mask) = tables.flatMap (tableFlags mask) := by
  induction tables with
  | nil => rfl
  | cons t tables ih =>
    cases h : t.isEmpty with
    | true =>
      rw [List.filter_cons_of_neg (by simp [h]), ih, List.flatMap_cons, tableFlags_of_isEmpty h,
        List.nil_append]
    | false => rw [List.filter_cons_of_pos (by simp [h]), List.flatMap_cons, List.flatMap_cons, ih]

theorem decompose_filter_isEmpty (tables : List Mappings) (value : Value) (narrow : DataType) :
    decompose (tables.filter (!·.isEmpty)) value narrow = decompose tables value narrow := by
  have hflags (mask : UInt64) :
      flagsOf mask (tables.filter (!·.isEmpty)) = flagsOf mask tables := by
    rw [flagsOf, flatMap_tableFlags_filter_isEmpty, flagsOf]
  unfold decompose
  simp only [hflags]

/-- What stands in for a value does not depend on tables without entries. -/
theorem Group.standIn?_filter_isEmpty (g : Group) (useFlags : Bool) (tables : List Mappings)
    (value : Value) (narrow : DataType) :
    g.standIn? useFlags (tables.filter (!·.isEmpty)) value narrow =
      g.standIn? useFlags tables value narrow := by
  simp only [standIn?, findSome?_filter_isEmpty, decompose_filter_isEmpty]

end Empty

namespace Group

/-- A scope that was never set has a table without entries. -/
theorem filter_toList_get? (g : Group) (scope : Scope) :
    (g.tables.get? scope).toList.filter (!·.isEmpty) = [g.table scope].filter (!·.isEmpty) := by
  rw [table]
  cases g.tables.get? scope <;> rfl

theorem filter_tablesFor (g : Group) (m : Member) :
    (g.tablesFor m.owner m.name m.descriptor).filter (!·.isEmpty) =
      ((Scope.around m).map g.table).filter (!·.isEmpty) := by
  have hfilter (scopes : List Scope) :
      (scopes.filterMap (g.tables.get? ·)).filter (!·.isEmpty) =
        (scopes.map g.table).filter (!·.isEmpty) := by
    induction scopes with
    | nil => rfl
    | cons scope scopes ih =>
      rw [← List.singleton_append, List.filterMap_append, List.filter_append, ih, List.map_append,
        List.filter_append, List.map_singleton, ← filter_toList_get?]
      congr 2
  rw [tablesFor, List.filter_append, hfilter, ← List.filter_append]
  rfl

/-- What stands in for a value in a method is found in the tables of the scopes around it. -/
theorem standIn?_tablesFor (g : Group) (m : Member) (useFlags : Bool) (value : Value)
    (narrow : DataType) :
    g.standIn? useFlags (g.tablesFor m.owner m.name m.descriptor) value narrow =
      g.standIn? useFlags ((Scope.around m).map g.table) value narrow := by
  rw [← standIn?_filter_isEmpty, filter_tablesFor, standIn?_filter_isEmpty]

end Group

/-! ## Agreement -/

/-- Groups that differ at most in the tables of scopes outside a set.  The tables of the scopes in
    the set are the same, with their entries in the same order. -/
structure Group.AgreesOn (scopes : Set Scope) (g g' : Group) : Prop where
  dataType : g'.dataType = g.dataType
  flags : g'.flags = g.flags
  table : ∀ scope ∈ scopes, g'.table scope = g.table scope

/-- Stores with the same groups, which differ at most in the tables of scopes outside a set. -/
def Store.AgreesOn (scopes : Set Scope) (s t : Store) : Prop :=
  ∀ k, Option.Rel (Group.AgreesOn scopes) (s.group? k) (t.group? k)

section Agreement

variable {scopes : Set Scope}

namespace Group.AgreesOn

variable {g g' g'' : Group}

theorem refl (g : Group) : g.AgreesOn scopes g := ⟨rfl, rfl, fun _ _ => rfl⟩

theorem trans (h : g.AgreesOn scopes g') (h' : g'.AgreesOn scopes g'') : g.AgreesOn scopes g'' :=
  ⟨h'.dataType.trans h.dataType, h'.flags.trans h.flags,
    fun scope hscope => (h'.table scope hscope).trans (h.table scope hscope)⟩

/-- A group agrees with what it becomes when another scope gets a table. -/
theorem setTable {scope : Scope} (hscope : scope ∉ scopes) (g : Group) (t : Mappings) :
    g.AgreesOn scopes (g.setTable scope t) := by
  refine ⟨rfl, rfl, fun scope' hscope' => ?_⟩
  rw [get?_table_setTable, if_neg]
  rintro rfl
  exact hscope hscope'

theorem standIn?_eq {m : Member} (h : g.AgreesOn {scope | scope.Encloses m} g') (useFlags : Bool)
    (value : Value) (narrow : DataType) :
    g'.standIn? useFlags (g'.tablesFor m.owner m.name m.descriptor) value narrow =
      g.standIn? useFlags (g.tablesFor m.owner m.name m.descriptor) value narrow := by
  have htables : (Scope.around m).map g'.table = (Scope.around m).map g.table :=
    List.map_congr_left fun scope hscope => h.table scope (Scope.mem_around_iff.1 hscope)
  rw [standIn?_tablesFor, standIn?_tablesFor, htables]
  simp only [standIn?, h.dataType, h.flags]

end Group.AgreesOn

namespace Store.AgreesOn

variable {s : Subject} {t : Store}

theorem refl (s : Store) : s.AgreesOn scopes s := by
  intro k
  cases s.group? k with
  | none => exact .none
  | some g => exact .some (.refl g)

/-- A store agrees with what it becomes when one of its groups does. -/
theorem setGroup_iff {s : Store} {g g' : Group} (hg : s.group? g'.key = some g) :
    s.AgreesOn scopes (s.setGroup g') ↔ g.AgreesOn scopes g' := by
  constructor
  · intro h
    have hgroup := h g'.key
    rw [group?_setGroup, if_pos rfl, hg] at hgroup
    cases hgroup with
    | some hagrees => exact hagrees
  · intro h k
    rw [group?_setGroup]
    split_ifs with hk
    · rw [hk, hg]
      exact .some h
    · exact refl s k

/-- A group is in both stores or in none. -/
theorem group?_cases {s t : Store} (h : s.AgreesOn scopes t) (k : GroupKey) :
    s.group? k = none ∧ t.group? k = none ∨
      ∃ g g', s.group? k = some g ∧ t.group? k = some g' ∧ g.AgreesOn scopes g' := by
  have hgroup := h k
  generalize s.group? k = a, t.group? k = b at hgroup
  cases hgroup with
  | none => exact .inl ⟨rfl, rfl⟩
  | some hagrees => exact .inr ⟨_, _, rfl, rfl, hagrees⟩

theorem mapping?_eq {s t : Store} (h : s.AgreesOn scopes t) {scope : Scope} (hscope : scope ∈ scopes)
    (k : GroupKey) (value : Value) : t.mapping? k scope value = s.mapping? k scope value := by
  rw [mapping?, mapping?]
  rcases group?_cases h k with ⟨hs, ht⟩ | ⟨g, g', hs, ht, hagrees⟩
  · rw [hs, ht]
  · rw [hs, ht, Option.bind_some, Option.bind_some, hagrees.table scope hscope]

theorem hasDefault_eq {s t : Store} (h : s.AgreesOn scopes t) (type : DataType) :
    t.hasDefault type = s.hasDefault type := by
  rw [hasDefault, hasDefault]
  rcases group?_cases h (.default type) with ⟨hs, ht⟩ | ⟨g, g', hs, ht, -⟩
  · rw [hs, ht]
  · rw [hs, ht]
    rfl

section Method

variable (h : s.store.AgreesOn {scope | scope.Encloses (s.method.member s.owner)} t)

include h

theorem standIn?_eq (key : GroupKey) (value : Value) (f : Facts) :
    Subject.standIn? { s with store := t } key value f = s.standIn? key value f := by
  unfold Subject.standIn?
  rcases group?_cases h key with ⟨hs, ht⟩ | ⟨g, g', hs, ht, hagrees⟩
  · rw [hs, ht]
  · rw [hs, ht]
    exact hagrees.standIn?_eq ..

omit h

variable (hbindings : t.bindings = s.store.bindings)

include hbindings

theorem groupChoice_eq (f : Facts) :
    Subject.groupChoice { s with store := t } f = s.groupChoice f := by
  simp only [Subject.groupChoice, hbindings]

include h

theorem verdict_eq (a : Solution) (index : Nat) (value : Value) (f : Facts) :
    Subject.verdict { s with store := t } a index value f = s.verdict a index value f := by
  have hkey (c : GroupChoice) : c.key? t value.dataType s.config.defaults =
      c.key? s.store value.dataType s.config.defaults := by
    cases c <;> simp only [GroupChoice.key?, h.hasDefault_eq]
  simp only [Subject.verdict, Subject.groupVerdict, groupChoice_eq hbindings, hkey, h.standIn?_eq]
  rfl

theorem visit_eq (a : Solution) (p : Pass) (index : Nat) (i : Instr) :
    Subject.visit { s with store := t } a p index i = s.visit a p index i := by
  -- which instructions are literals to restore does not depend on the store
  have hliteral : Subject.literalAt? { s with store := t } a index i = s.literalAt? a index i := rfl
  simp only [Subject.visit, hliteral, h.verdict_eq hbindings, groupChoice_eq hbindings]
  rfl

theorem restore_eq : Subject.restore { s with store := t } = s.restore := by
  have hplan (a : Solution) : Subject.plan { s with store := t } a = s.plan a := by
    simp only [Subject.plan, h.visit_eq hbindings]
  simp only [Subject.restore, hplan]
  rfl

end Method

end Store.AgreesOn

end Agreement

/-! ## Methods -/

namespace Subject

/-- The scopes of the method, the most specific first. -/
def scopes (s : Subject) : List Scope := Scope.around (s.method.member s.owner)

section Decision

variable {s : Subject} {key : GroupKey} {g : Group} {value k : Value} {f : Facts}
  (hg : s.store.group? key = some g)

include hg

theorem standIn?_eq_tables : s.standIn? key value f =
    g.standIn? s.config.flags (s.scopes.map g.table) value (f.narrowType value.dataType) := by
  rw [standIn?, hg, scopes, ← g.standIn?_tablesFor]
  rfl

variable (hk : value.convertExact g.dataType = some k)

include hk

/-- The first scope that maps a value decides, also where its entry does not serve. -/
theorem standIn?_eq_of_first {before after : List Scope} {scope : Scope} {entry : Mapping}
    (hscopes : s.scopes = before ++ scope :: after)
    (hbefore : ∀ scope' ∈ before, (g.table scope').get? k = none)
    (hentry : (g.table scope).get? k = some entry) :
    s.standIn? key value f =
      if (f.narrowType value.dataType).stackKind = g.dataType.stackKind ∧
          entry.serves (f.narrowType value.dataType) g.dataType then
        some ⟨entry.expr, g.dataType⟩
      else none := by
  have hfirst : (s.scopes.map g.table).findSome? (·.get? k) = some entry := by
    have hnone : (before.map g.table).findSome? (·.get? k) = none :=
      List.findSome?_eq_none_iff.2 (List.forall_mem_map.2 hbefore)
    rw [hscopes, List.map_append, List.findSome?_append, hnone, List.map_cons, List.findSome?_cons,
      hentry, Option.none_or]
  rw [standIn?_eq_tables hg, Group.standIn?, hk, Option.bind_some, hfirst, ite_and]

/-- Flags are combined where no scope of the method maps the value. -/
theorem standIn?_eq_of_unmapped (hnone : ∀ scope ∈ s.scopes, (g.table scope).get? k = none) :
    s.standIn? key value f =
      if (f.narrowType value.dataType).stackKind = g.dataType.stackKind ∧
          s.config.flags ∧ g.flags then
        (decompose (s.scopes.map g.table) k (g.width (f.narrowType value.dataType))).map
          (⟨·, g.width (f.narrowType value.dataType)⟩)
      else none := by
  have hfirst : (s.scopes.map g.table).findSome? (·.get? k) = none :=
    List.findSome?_eq_none_iff.2 (List.forall_mem_map.2 hnone)
  rw [standIn?_eq_tables hg, Group.standIn?, hk, Option.bind_some, hfirst, ite_and]
  simp only [Bool.and_eq_true, Group.width]

end Decision

/-- **The most specific scope decides, and others make no difference.**  The scopes of a
    method are those that enclose it.  The first of them that maps a value decides what
    stands in for it: its entry, or nothing if this does not serve.  Flags are combined
    where none maps it.  A store with other entries in scopes that do not enclose the
    method restores it to the same code, with the same statistics. -/
theorem scopes_decide (s : Subject) :
    (∀ scope, scope ∈ s.scopes ↔ scope.Encloses (s.method.member s.owner)) ∧
    (∀ key g value k f, s.store.group? key = some g → value.convertExact g.dataType = some k →
      (∀ before scope after entry, s.scopes = before ++ scope :: after →
        (∀ scope' ∈ before, (g.table scope').get? k = none) →
        (g.table scope).get? k = some entry →
        s.standIn? key value f =
          if (f.narrowType value.dataType).stackKind = g.dataType.stackKind ∧
              entry.serves (f.narrowType value.dataType) g.dataType then
            some ⟨entry.expr, g.dataType⟩
          else none) ∧
      ((∀ scope ∈ s.scopes, (g.table scope).get? k = none) →
        s.standIn? key value f =
          if (f.narrowType value.dataType).stackKind = g.dataType.stackKind ∧
              s.config.flags ∧ g.flags then
            (decompose (s.scopes.map g.table) k (g.width (f.narrowType value.dataType))).map
              (⟨·, g.width (f.narrowType value.dataType)⟩)
          else none)) ∧
    ∀ t : Store, t.bindings = s.store.bindings →
      s.store.AgreesOn {scope | scope.Encloses (s.method.member s.owner)} t →
      restore { s with store := t } = s.restore := by
  refine ⟨fun scope => ?_, ?_, ?_⟩
  · rw [scopes, Scope.mem_around_iff]
  · intro key g value k f hg hk
    exact ⟨fun _ _ _ _ => standIn?_eq_of_first hg hk, standIn?_eq_of_unmapped hg hk⟩
  · intro t hbindings h
    exact h.restore_eq hbindings

/-- The table that maps 3 to a flag. -/
def threeTo (name : String) (strict : Bool) : Mappings :=
  (∅ : Mappings).set (.int 3) ⟨strict, flagField name⟩

/-- A group that maps 3 everywhere, and in the class `p.C` strictly to something else. -/
def nestedGroup : Group :=
  ((Group.empty (.named "g") .int true).setTable .global (threeTo "READ" false)).setTable
    (.class_ "p/C") (threeTo "WRITE" true)

/-- A method of `p.C` that passes 3 to a parameter of a type. -/
def nestedSubject (type : DataType) : Subject := passing accessRegistry nestedGroup type 3

/-- The group with more entries: in a package below `p`, in a class whose name starts
    like `p.C`, and in a method with another descriptor. -/
def outsideGroup : Group :=
  ((nestedGroup.setTable (.package "p/C") (threeTo "READ" false)).setTable
    (.class_ "p/C1") (threeTo "READ" false)).setTable
    (.method "p/C" "m" "(I)V") (threeTo "READ" false)

/-- The entry of `p.C` stands in for an int and nothing does for a byte, whatever the
    scopes outside map. -/
theorem scopes_decide_nested :
    (nestedSubject .int).standIn? (.named "g") (.int 3) (passedFacts .int) =
      some ⟨flagField "WRITE", .int⟩ ∧
    (nestedSubject .byte).standIn? (.named "g") (.int 3) (passedFacts .byte) = none ∧
    restore { nestedSubject .int with store := (nestedSubject .int).store.setGroup outsideGroup } =
      (nestedSubject .int).restore := by
  have hg (type : DataType) : (nestedSubject type).store.group? (.named "g") = some nestedGroup :=
    rfl
  have hk : (Value.int 3).convertExact nestedGroup.dataType = some (.int 3) := by cbv
  have hscopes (type : DataType) : (nestedSubject type).scopes =
      [.method "p/C" "m" "()V"] ++ .class_ "p/C" :: [.package "p", .global] := by cbv
  have hbefore : ∀ scope ∈ [Scope.method "p/C" "m" "()V"],
      (nestedGroup.table scope).get? (.int 3) = none := by decide
  have hentry : (nestedGroup.table (.class_ "p/C")).get? (.int 3) =
      some ⟨true, flagField "WRITE"⟩ := by decide
  have hdecides (type : DataType) (f : Facts) :=
    ((scopes_decide (nestedSubject type)).2.1 _ _ _ _ f (hg type) hk).1 _ _ _ _ (hscopes type)
      hbefore hentry
  refine ⟨?_, ?_, ?_⟩
  · rw [hdecides .int]
    cbv
  · rw [hdecides .byte]
    cbv
  · obtain ⟨henclosing, -, hframe⟩ := scopes_decide (nestedSubject .int)
    have hout : ∀ scope ∉ (nestedSubject .int).scopes,
        scope ∉ {scope | scope.Encloses ((nestedSubject .int).method.member "p/C")} :=
      fun scope hscope h => hscope ((henclosing scope).2 h)
    rw [hscopes] at hout
    refine hframe _ rfl ((Store.AgreesOn.setGroup_iff (hg .int)).2 ?_)
    exact ((Group.AgreesOn.setTable (hout (.package "p/C") (by decide)) ..).trans
      (.setTable (hout (.class_ "p/C1") (by decide)) ..)).trans
      (.setTable (hout (.method "p/C" "m" "(I)V") (by decide)) ..)

end Subject

end ConstRestore
