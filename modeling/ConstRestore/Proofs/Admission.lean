/-
  Entries that stand-ins are made of.

  An entry serves literals of the group's type, and unless it is strict those of
  types that widen to it (`Mapping.serves`).  The entry that maps a literal is
  checked for this, the flags of a combination are not: `Subject.standIn?_admission`
  says which entries a stand-in is made of, and when all of them serve.
  `strict_flag_in_another_type` is a byte made of strict `int` flags.
-/
import ConstRestore.Proofs.Coverage
import ConstRestore.Proofs.Verbatim

namespace ConstRestore

variable {mask target : UInt64} {tables : List Mappings}

/-! ## Parts of expressions -/

/-- An expression occurs in another one. -/
inductive Expr.Occurs (e : Expr) : Expr → Prop
  | self : Occurs e e
  | unary {op : UnaryOp} {e' : Expr} (h : Occurs e e') : Occurs e (.unary op e')
  | left {op : BinaryOp} {l r : Expr} (h : Occurs e l) : Occurs e (.binary op l r)
  | right {op : BinaryOp} {l r : Expr} (h : Occurs e r) : Occurs e (.binary op l r)
  | cast {type : DataType} {e' : Expr} (h : Occurs e e') : Occurs e (.cast type e')

/-- An expression is put together from parts and literals by `|` and `~`. -/
inductive Expr.MadeOf (parts : Set Expr) : Expr → Prop
  | part {e : Expr} (h : e ∈ parts) : MadeOf parts e
  | literal (l : Literal) : MadeOf parts (.literal l)
  | or {l r : Expr} (hl : MadeOf parts l) (hr : MadeOf parts r) : MadeOf parts (.binary .or l r)
  | complement {e : Expr} (h : MadeOf parts e) : MadeOf parts (.unary .complement e)

theorem Cover.occurs_expr? {c : Cover} {e : Expr} (he : c.expr? = some e) :
    ∀ f ∈ c.flags, f.expr.Occurs e := by
  refine expr?_induction (P := fun fs e => ∀ f ∈ fs, f.expr.Occurs e) ?_ ?_ he
  · intro f f' hf'
    obtain rfl := List.mem_singleton.1 hf'
    exact .self
  · intro fs e f ih f' hf'
    rcases List.mem_append.1 hf' with hf' | hf'
    · exact .left (ih f' hf')
    · obtain rfl := List.mem_singleton.1 hf'
      exact .right .self

theorem Cover.madeOf_expr? {c : Cover} {e : Expr} (he : c.expr? = some e) {parts : Set Expr}
    (hparts : ∀ f ∈ c.flags, f.expr ∈ parts) : e.MadeOf parts := by
  revert hparts
  refine expr?_induction (P := fun fs e => (∀ f ∈ fs, f.expr ∈ parts) → e.MadeOf parts) ?_ ?_ he
  · exact fun f hf => .part (hf f List.mem_cons_self)
  · intro fs e f ih hf
    exact .or (ih fun f' hf' => hf f' (List.mem_append_left _ hf')) (.part (hf f (by simp)))

/-- A combination is the OR of the flags chosen, complemented or with a literal. -/
theorem exists_cover_of_decompose {narrow : DataType} (hm : narrow.mask? = some mask) {value : Value}
    (hv : value.pattern? mask = some target) {e : Expr} (h : decompose tables value narrow = some e) :
    ∃ (c : Cover) (e' : Expr), c.flags = chosen mask tables target ∧ c.expr? = some e' ∧
      (e = e' ∨ e = .unary .complement e' ∨ ∃ l, e = .binary .or e' (.literal l)) := by
  obtain ⟨l, hl, -⟩ := residualLiteral_alone hm tables hv
  rw [decompose_eq hm hv] at h
  unfold chosen
  split_ifs at h ⊢
  · obtain ⟨e', he', rfl⟩ := Option.map_eq_some_iff.1 h
    exact ⟨_, e', rfl, he', .inr (.inl rfl)⟩
  · obtain ⟨e', he', rfl⟩ := Option.map_eq_some_iff.1 h
    exact ⟨_, e', rfl, he', .inl rfl⟩
  · obtain ⟨e', he', rfl⟩ := Option.map_eq_some_iff.1 h
    exact ⟨_, e', rfl, he', .inr (.inr ⟨l, by rw [hl]⟩)⟩

theorem occurs_of_mem_chosen {narrow : DataType} (hm : narrow.mask? = some mask) {value : Value}
    (hv : value.pattern? mask = some target) {e : Expr} (h : decompose tables value narrow = some e)
    {f : Flag} (hf : f ∈ chosen mask tables target) : f.expr.Occurs e := by
  obtain ⟨c, e', hc, he', hshape⟩ := exists_cover_of_decompose hm hv h
  have hoccurs := c.occurs_expr? he' f (hc ▸ hf)
  rcases hshape with rfl | rfl | ⟨l, rfl⟩
  · exact hoccurs
  · exact .unary hoccurs
  · exact .left hoccurs

theorem madeOf_chosen {narrow : DataType} (hm : narrow.mask? = some mask) {value : Value}
    (hv : value.pattern? mask = some target) {e : Expr} (h : decompose tables value narrow = some e)
    {parts : Set Expr} (hparts : ∀ f ∈ chosen mask tables target, f.expr ∈ parts) :
    e.MadeOf parts := by
  obtain ⟨c, e', hc, he', hshape⟩ := exists_cover_of_decompose hm hv h
  have hmade := c.madeOf_expr? he' (hc ▸ hparts)
  rcases hshape with rfl | rfl | ⟨l, rfl⟩
  · exact hmade
  · exact .complement hmade
  · exact .or hmade (.literal l)

theorem exists_mem_chosen {narrow : DataType} (hm : narrow.mask? = some mask) {value : Value}
    (hv : value.pattern? mask = some target) {e : Expr}
    (h : decompose tables value narrow = some e) : ∃ f, f ∈ chosen mask tables target := by
  obtain ⟨c, e', hc, he', -⟩ := exists_cover_of_decompose hm hv h
  refine List.exists_mem_of_ne_nil _ fun hnil => ?_
  rw [Cover.expr?_eq_none_iff.2 (hc.trans hnil)] at he'
  cases he'

/-! ## Entries of stand-ins -/

/-- The entries that the stand-in for a value is made of: the one that maps the value,
    or those that name the flags chosen. -/
inductive Group.Uses (g : Group) (tables : List Mappings) (value : Value) (narrow : DataType) :
    Mapping → Prop
  | mapped {entry : Mapping} (h : g.mapping? tables value = some entry) :
    Uses g tables value narrow entry
  | flag {key : Value} {mask target : UInt64} {f : Flag} {entry : Mapping}
    (hnone : g.mapping? tables value = none) (hkey : value.convertExact g.dataType = some key)
    (hmask : (g.width narrow).mask? = some mask) (htarget : key.pattern? mask = some target)
    (hf : f ∈ chosen mask tables target) (hentry : MostSpecific mask f.bits tables entry)
    (hexpr : entry.expr = f.expr) : Uses g tables value narrow entry

/-- They are entries of the tables. -/
theorem Group.Uses.exists_get? {g : Group} {value : Value} {narrow : DataType} {entry : Mapping}
    (h : g.Uses tables value narrow entry) : ∃ t ∈ tables, ∃ key, t.get? key = some entry := by
  cases h with
  | mapped h =>
    obtain ⟨key, -, h⟩ := Option.bind_eq_some_iff.1 h
    obtain ⟨t, ht, h⟩ := List.exists_of_findSome?_eq_some h
    exact ⟨t, ht, key, h⟩
  | flag _ _ _ _ _ hentry =>
    obtain ⟨t, ht, key, h, -⟩ := hentry.exists_names
    exact ⟨t, ht, key, h⟩

theorem Mapping.serves_iff {entry : Mapping} {narrow type : DataType} :
    entry.serves narrow type ↔ narrow = type ∨ narrow.widensTo type ∧ ¬entry.strict := by
  have hself : type.widensTo type := by cases type <;> rfl
  rw [serves]
  split_ifs with h
  · simp [h]
  · simp only [h]
    constructor
    · exact fun hw => .inr ⟨hw, Bool.false_ne_true⟩
    · rintro (rfl | ⟨hw, -⟩)
      · exact hself
      · exact hw

section StandIn

variable {g : Group} {useFlags : Bool} {value : Value} {narrow : DataType} {w : StandIn}
  (hw : g.standIn? useFlags tables value narrow = some w)

include hw

/-- The entry that maps a value is only taken if it serves. -/
theorem Group.serves_of_mapping? {entry : Mapping}
    (hentry : g.mapping? tables value = some entry) : entry.serves narrow g.dataType := by
  unfold standIn? at hw
  split at hw
  swap
  · cases hw
  obtain ⟨key, hkey, hw⟩ := Option.bind_eq_some_iff.1 hw
  rw [mapping?, hkey, Option.bind_some] at hentry
  simp only [hentry] at hw
  split_ifs at hw with hserves
  exact hserves

/-- A combination of flags is made of those chosen in its type. -/
theorem Group.exists_chosen (hnone : g.mapping? tables value = none) :
    ∃ key mask target, value.convertExact g.dataType = some key ∧
      (g.width narrow).mask? = some mask ∧ key.pattern? mask = some target ∧
      decompose tables key (g.width narrow) = some w.expr := by
  obtain ⟨-, key, hkey, h⟩ := standIn?_eq_some hw
  rw [hnone] at h
  obtain ⟨mask, bits, hmask, hbits, -⟩ := decompose_eq_some h.1
  exact ⟨key, mask, _, hkey, hmask, by rw [Value.pattern?, hbits]; rfl, h.1⟩

theorem Group.occurs_of_uses {entry : Mapping} (h : g.Uses tables value narrow entry) :
    entry.expr.Occurs w.expr := by
  cases h with
  | mapped hentry =>
    obtain ⟨-, key, -, h⟩ := standIn?_eq_some hw
    rw [hentry] at h
    rw [h]
    exact .self
  | flag hnone hkey hmask htarget hf _ hexpr =>
    obtain ⟨-, key', hkey', h⟩ := standIn?_eq_some hw
    obtain rfl := Option.some.inj (hkey.symm.trans hkey')
    rw [hnone] at h
    rw [hexpr]
    exact occurs_of_mem_chosen hmask htarget h.1 hf

theorem Group.madeOf_uses :
    w.expr.MadeOf {e | ∃ entry, g.Uses tables value narrow entry ∧ entry.expr = e} := by
  cases hentry : g.mapping? tables value with
  | some entry =>
    obtain ⟨-, key, -, h⟩ := standIn?_eq_some hw
    rw [hentry] at h
    exact .part ⟨entry, .mapped hentry, by rw [h]⟩
  | none =>
    obtain ⟨key, mask, target, hkey, hmask, htarget, h⟩ := exists_chosen hw hentry
    refine madeOf_chosen hmask htarget h fun f hf => ?_
    obtain ⟨-, entry, hnamed, hexpr⟩ := mem_flagsOf (mem_flagsOf_of_mem_chosen hf)
    exact ⟨entry, .flag hentry hkey hmask htarget hf hnamed hexpr, hexpr⟩

theorem Group.exists_uses : ∃ entry, g.Uses tables value narrow entry := by
  cases hentry : g.mapping? tables value with
  | some entry => exact ⟨entry, .mapped hentry⟩
  | none =>
    obtain ⟨key, mask, target, hkey, hmask, htarget, h⟩ := exists_chosen hw hentry
    obtain ⟨f, hf⟩ := exists_mem_chosen hmask htarget h
    obtain ⟨-, entry, hnamed, hexpr⟩ := mem_flagsOf (mem_flagsOf_of_mem_chosen hf)
    exact ⟨entry, .flag hentry hkey hmask htarget hf hnamed hexpr⟩

/-- The entries of a combination are not checked, so they serve only where all flags do. -/
theorem Group.uses_serve_iff :
    (∀ entry, g.Uses tables value narrow entry → entry.serves narrow g.dataType) ↔
      (g.mapping? tables value).isSome ∨ narrow = g.dataType ∨
        narrow.widensTo g.dataType ∧
          ∀ entry, g.Uses tables value narrow entry → ¬entry.strict := by
  simp only [Mapping.serves_iff]
  constructor
  · intro h
    by_cases hsame : narrow = g.dataType
    · exact .inr (.inl hsame)
    -- in another type it takes an entry that serves to know that the type widens
    obtain ⟨entry, hentry⟩ := exists_uses hw
    exact .inr (.inr ⟨((h entry hentry).resolve_left hsame).1,
      fun entry' h' => ((h entry' h').resolve_left hsame).2⟩)
  · rintro (hmapped | hsame | ⟨hwidens, hloose⟩) entry hentry
    · obtain ⟨first, hfirst⟩ := Option.isSome_iff_exists.1 hmapped
      cases hentry with
      | mapped h => exact Mapping.serves_iff.1 (serves_of_mapping? hw h)
      | flag hnone =>
        rw [hfirst] at hnone
        cases hnone
    · exact .inl hsame
    · exact .inr ⟨hwidens, hloose entry hentry⟩

end StandIn

/-- What a stand-in is made of, and when all of it serves. -/
structure Group.Admission (g : Group) (tables : List Mappings) (value : Value) (narrow : DataType)
    (w : StandIn) : Prop where
  mapped : ∀ entry, g.Uses tables value narrow entry → ∃ t ∈ tables, ∃ key, t.get? key = some entry
  occurs : ∀ entry, g.Uses tables value narrow entry → entry.expr.Occurs w.expr
  /-- Nothing but entries and literals. -/
  madeOf : w.expr.MadeOf {e | ∃ entry, g.Uses tables value narrow entry ∧ entry.expr = e}
  serve_iff : (∀ entry, g.Uses tables value narrow entry → entry.serves narrow g.dataType) ↔
    (g.mapping? tables value).isSome ∨ narrow = g.dataType ∨
      narrow.widensTo g.dataType ∧ ∀ entry, g.Uses tables value narrow entry → ¬entry.strict

/-- **Which entries a literal's stand-in is made of, and when they serve it.**  The entry
    that maps the literal does.  Flags serve only if the literal's type is the
    group's, or widens to it and none of them is strict. -/
theorem Subject.standIn?_admission {s : Subject} {key : GroupKey} {g : Group}
    (hg : s.store.group? key = some g) {value : Value} {f : Facts} {w : StandIn}
    (hw : s.standIn? key value f = some w) :
    g.Admission (s.tables g) value (f.narrowType value.dataType) w where
  mapped _ := Group.Uses.exists_get?
  occurs _ := Group.occurs_of_uses (standIn?_eq_some hg hw)
  madeOf := Group.madeOf_uses (standIn?_eq_some hg hw)
  serve_iff := Group.uses_serve_iff (standIn?_eq_some hg hw)

/-! ## Strict flags -/

/-- A registry with `p.G.READ = 1` and `p.G.WRITE = 2` of type `int`. -/
def accessRegistry : Registry :=
  (ClassRegistry.empty.addConstant "p/G" "READ" ⟨.int, .int 1, true⟩).addConstant
    "p/G" "WRITE" ⟨.int, .int 2, true⟩

/-- A group of `int` flags, which are both strict. -/
def accessGroup : Group :=
  (((Group.empty (.named "g") .int true).insertExpr accessRegistry .global true
    (flagField "READ")).1.insertExpr accessRegistry .global true (flagField "WRITE")).1

/-- A method that passes 3 to a parameter of a type, which is bound to the flags. -/
def accessSubject (type : DataType) : Subject := passing accessRegistry accessGroup type 3

/-- `p.G.READ | p.G.WRITE` of a type. -/
def readWrite (type : DataType) : StandIn :=
  ⟨.binary .or (flagField "READ") (flagField "WRITE"), type⟩

/-- The literal 3, passed as an int, becomes `p.G.READ | p.G.WRITE`. -/
theorem standIn?_admission_int :
    (accessSubject .int).store.group? (.named "g") = some accessGroup ∧
    (accessSubject .int).standIn? (.named "g") (.int 3) (passedFacts .int) =
      some (readWrite .int) ∧
    accessGroup.Admission ((accessSubject .int).tables accessGroup) (.int 3)
      ((passedFacts .int).narrowType .int) (readWrite .int) := by
  have hg : (accessSubject .int).store.group? (.named "g") = some accessGroup := by cbv
  have hw : (accessSubject .int).standIn? (.named "g") (.int 3) (passedFacts .int) =
      some (readWrite .int) := by cbv
  exact ⟨hg, hw, Subject.standIn?_admission hg hw⟩

/-- The literal 3, passed as a byte, becomes `p.G.READ | p.G.WRITE`. -/
theorem strict_flag_in_another_type :
    (accessSubject .byte).store.group? (.named "g") = some accessGroup ∧
    ∃ a f w, solve accessRegistry defaultStepLimit "p/C" (accessSubject .byte).method = .ok a ∧
      a.facts? 0 = some f ∧
      (accessSubject .byte).standIn? (.named "g") (.int 3) f = some w ∧
      f.narrowType .int ≠ accessGroup.dataType ∧
      ∃ t ∈ (accessSubject .byte).tables accessGroup, ∃ key entry, t.get? key = some entry ∧
        entry.strict ∧ entry.expr.Occurs w.expr ∧
        ¬entry.serves (f.narrowType .int) accessGroup.dataType := by
  have h : (solve accessRegistry defaultStepLimit "p/C" (accessSubject .byte).method).map
      (fun a => a.facts? 0) = .ok (some (passedFacts .byte)) := by cbv
  have htables : (accessSubject .byte).tables accessGroup = [accessGroup.table .global] := by cbv
  have hentry : (accessGroup.table .global).get? (.int 1) = some ⟨true, flagField "READ"⟩ := by cbv
  have htype : accessGroup.dataType = .int := by cbv
  have hnarrow : (passedFacts .byte).narrowType .int = .byte := by cbv
  obtain ⟨a, ha, hfacts⟩ := map_eq_ok.1 h
  refine ⟨by cbv, a, passedFacts .byte, readWrite .byte, ha, hfacts, by cbv, ?_, _,
    htables ▸ List.mem_singleton_self _, .int 1, ⟨true, flagField "READ"⟩, hentry, rfl,
    .left .self, ?_⟩
  · rw [htype, hnarrow]
    decide
  · rw [htype, hnarrow]
    decide

end ConstRestore
