/-
  Groups that mapping data was inserted into.

  Whatever is inserted, accepted or refused, every entry of a group stands for
  the value that it is mapped under (`sound_of_filled`): its expression has a
  value that converts exactly to the mapped one.  Over static constants the
  code of an entry needs no object (`substitution_eq_ok`).
-/
import ConstRestore.Restore.Restoration
import ConstRestore.Proofs.Folding
import ConstRestore.Proofs.Growth

namespace ConstRestore

variable {r : Registry}

/-- A group that expressions were inserted into, whether they were accepted or
    not. -/
inductive Group.Filled (r : Registry) : Group → Prop
  | empty (key : GroupKey) (type : DataType) (flags : Bool) : Filled r (.empty key type flags)
  | insertExpr {g : Group} (h : Filled r g) (s : Scope) (strict : Bool) (e : Expr) :
    Filled r (g.insertExpr r s strict e).1

/-- Every entry of a group stands for the value that it is mapped under, which
    is of the group's type. -/
def Group.Sound (r : Registry) (g : Group) : Prop :=
  ∀ s key entry, (g.table s).get? key = some entry →
    key.dataType = g.dataType ∧ entry.expr.StandsFor r key

namespace Group

theorem Sound.extends {g g' : Group} (hg : g.Sound r)
    (h : g.Extends (fun key entry => entry.expr.StandsFor r key) g') : g'.Sound r := by
  intro s key entry hentry
  rw [h.dataType]
  rcases h.added s key entry hentry with hentry | hadded
  · exact hg s key entry hentry
  · exact hadded

/-- **Every entry of a group stands for the value that it is mapped under.** -/
theorem sound_of_filled {g : Group} (h : g.Filled r) : g.Sound r := by
  induction h with
  | empty key type flags => intro s key entry h; cases h
  | insertExpr h s strict e ih => exact ih.extends (extends_insertExpr r _ s strict e)

/-- The tables that apply inside a method are tables of scopes. -/
theorem exists_scope_of_mem_tablesFor {g : Group} {owner name descriptor : String} {t : Mappings}
    (h : t ∈ g.tablesFor owner name descriptor) : ∃ s, t = g.table s := by
  rcases List.mem_append.1 h with h | h
  · obtain ⟨s, -, hs⟩ := List.mem_filterMap.1 h
    exact ⟨s, by rw [table, hs]; rfl⟩
  · exact ⟨.global, List.mem_singleton.1 h⟩

theorem Sound.tablesFor {g : Group} (hg : g.Sound r) {owner name descriptor : String} {t : Mappings}
    (ht : t ∈ g.tablesFor owner name descriptor) {key : Value} {entry : Mapping}
    (h : t.get? key = some entry) : key.dataType = g.dataType ∧ entry.expr.StandsFor r key := by
  obtain ⟨s, rfl⟩ := exists_scope_of_mem_tablesFor ht
  exact hg s key entry h

end Group

/-! ## Stand-ins -/

/-- The entry that maps a value: that of the first table which has one. -/
def Group.mapping? (g : Group) (tables : List Mappings) (value : Value) : Option Mapping :=
  (value.convertExact g.dataType).bind fun key => tables.findSome? (·.get? key)

/-- The type that a combination of flags has for a value of type `narrow`. -/
def Group.width (g : Group) (narrow : DataType) : DataType :=
  if narrow.isIntegral then narrow else g.dataType

/-- A stand-in is the entry that maps the value, or if there is none a combination
    of flags. -/
theorem Group.standIn?_eq_some {g : Group} {useFlags : Bool} {tables : List Mappings}
    {value : Value} {narrow : DataType} {w : StandIn}
    (h : g.standIn? useFlags tables value narrow = some w) :
    narrow.stackKind = g.dataType.stackKind ∧
      ∃ key, value.convertExact g.dataType = some key ∧
        match g.mapping? tables value with
        | some entry => w = ⟨entry.expr, g.dataType⟩
        | none =>
          decompose tables key (g.width narrow) = some w.expr ∧ w.type = g.width narrow := by
  unfold standIn? at h
  split at h
  swap
  · cases h
  rename_i hk
  obtain ⟨key, hkey, h⟩ := Option.bind_eq_some_iff.1 h
  have hm : g.mapping? tables value = tables.findSome? (·.get? key) := by
    rw [mapping?, hkey, Option.bind_some]
  refine ⟨hk, key, hkey, ?_⟩
  rw [hm]
  cases hentry : tables.findSome? (·.get? key) with
  | some entry =>
    simp only [hentry] at h ⊢
    split_ifs at h
    exact (Option.some.inj h).symm
  | none =>
    simp only [hentry] at h ⊢
    by_cases hflags : (useFlags && g.flags) = true
    · rw [if_pos hflags] at h
      obtain ⟨e, he, rfl⟩ := Option.map_eq_some_iff.1 h
      exact ⟨he, rfl⟩
    · rw [if_neg hflags] at h
      cases h

theorem stackKind_narrowType (f : Facts) (literal : DataType) :
    (f.narrowType literal).stackKind = literal.stackKind := by
  unfold Facts.narrowType
  split
  · rename_i t ht
    have hmem : t ∈ [t] := List.mem_singleton_self t
    rw [← ht] at hmem
    exact (of_decide_eq_true (List.mem_filter.1 hmem).2).2
  · rfl

/-! ## Static constants -/

/-- Every constant is static, integral and of its declared type. -/
def Registry.StaticIntegral (r : Registry) : Prop :=
  ∀ owner name c, r.constant? owner name = some c →
    c.isStatic ∧ c.dataType.isIntegral ∧ c.value.dataType = c.dataType

theorem Registry.StaticIntegral.wellTyped (hr : r.StaticIntegral) : r.WellTyped :=
  fun owner name c h => (hr owner name c h).2.2

theorem Registry.staticIntegral_empty : ClassRegistry.empty.registry.StaticIntegral := by
  intro owner name c h
  cases h

theorem Registry.StaticIntegral.addConstant {t : ClassRegistry} (hr : t.registry.StaticIntegral)
    {owner name : String} {c : Constant} (hs : c.isStatic) (hi : c.dataType.isIntegral)
    (hc : c.value.dataType = c.dataType) :
    (t.addConstant owner name c).registry.StaticIntegral := by
  intro owner' name' c' h
  rw [ClassRegistry.constant?_addConstant] at h
  split_ifs at h
  · cases h; exact ⟨hs, hi, hc⟩
  · exact hr owner' name' c' h

theorem Registry.StaticIntegral.isStatic (hr : r.StaticIntegral) {f : FieldRef} {c : Constant}
    (h : r.fieldConstant f = .ok c) : f.isStatic := by
  obtain ⟨name, -, hc, hs⟩ := fieldConstant_eq_ok h
  obtain ⟨owner, hc⟩ := exists_constant?_of_findConstant? hc
  exact hs ▸ (hr owner name c hc).1

theorem allStatic_of_evaluate (hr : r.StaticIntegral) {e : Expr} {v : Value}
    (h : e.evaluate r = .ok v) : e.AllStatic := by
  induction e generalizing v with
  | literal l => trivial
  | field f =>
    obtain ⟨c, hc, -⟩ := map_eq_ok.1 h
    exact hr.isStatic hc
  | unary op e ih | cast target e ih =>
    obtain ⟨a, ha, -⟩ := bind_eq_ok.1 h
    exact ih ha
  | binary op e e' ih ih' =>
    obtain ⟨a, ha, h⟩ := bind_eq_ok.1 h
    obtain ⟨b, hb, -⟩ := bind_eq_ok.1 h
    exact ⟨ih ha, ih' hb⟩

theorem loadOnReceiver_ne_ok (hr : r.StaticIntegral) (e : Expr) (code : List Instr × DataType) :
    loadOnReceiver r e ≠ .ok code := by
  intro h
  obtain ⟨f, load, -, hstatic, hload, -⟩ := loadOnReceiver_eq_ok h
  obtain ⟨c, hc, -⟩ := bind_eq_ok.1 hload
  exact hstatic (hr.isStatic (mapError_eq_ok.1 hc))

/-- Static constants need no object, so no null check is removed for one. -/
theorem checkedCode?_eq_none {s : Subject} (hr : s.registry.StaticIntegral) (a : Solution)
    (index : Nat) (w : StandIn) : s.checkedCode? a index w = none := by
  refine Option.eq_none_iff_forall_ne_some.2 ?_
  intro p h
  obtain ⟨guarded, -, h⟩ := Option.bind_eq_some_iff.1 h
  obtain ⟨code, hcode, -⟩ := Option.bind_eq_some_iff.1 h
  obtain ⟨load, hload, -⟩ := bind_eq_ok.1 (toOption_eq_some.1 hcode)
  exact loadOnReceiver_ne_ok hr w.expr load hload

theorem substitution_eq_ok {s : Subject} (hr : s.registry.StaticIntegral) {a : Solution}
    {index : Nat} {literal : DataType} {w : StandIn} {sub : Substitution}
    (h : s.substitution a index literal w = .ok sub) :
    ∃ code last, codeFor s.registry (s.codeContext false) w.expr w.type = .ok code ∧
      convert w.type literal = .ok last ∧ sub = ⟨none, code ++ last⟩ := by
  simp only [Subject.substitution, checkedCode?_eq_none hr] at h
  obtain ⟨code, hcode, h⟩ := bind_eq_ok.1 h
  obtain ⟨last, hlast, h⟩ := bind_eq_ok.1 h
  exact ⟨code, last, hcode, hlast, (Except.ok.inj h).symm⟩

end ConstRestore
