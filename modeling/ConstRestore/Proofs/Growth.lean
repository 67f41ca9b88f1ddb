/-
  How mapping data grows.

  Whatever is inserted, accepted or refused, a group keeps its type, its flags
  bit and all its entries (`Group.Extends`), and an entry that an expression was
  inserted for stands for the value that it is mapped under
  (`extends_insertExpr`).  `wellFormed_build` says so for every sequence of
  calls on a store.
-/
import ConstRestore.Proofs.Hierarchy
import ConstRestore.Group.Store
import ConstRestore.Proofs.Conversion
import ConstRestore.Proofs.Result

namespace ConstRestore

variable {r : Registry}

/-- The expression has a value that converts exactly to `key`. -/
def Expr.StandsFor (r : Registry) (e : Expr) (key : Value) : Prop :=
  ∃ v, e.evaluate r = .ok v ∧ v.convertExact key.dataType = some key

namespace Group

/-! ## Groups -/

/-- A group with more entries: they are of its type and have a property, and
    nothing else has changed. -/
structure Extends (P : Value → Mapping → Prop) (g g' : Group) : Prop where
  key : g'.key = g.key
  dataType : g'.dataType = g.dataType
  flags : g'.flags = g.flags
  kept : ∀ s value entry, (g.table s).get? value = some entry → (g'.table s).get? value = some entry
  added : ∀ s value entry, (g'.table s).get? value = some entry →
    (g.table s).get? value = some entry ∨ value.dataType = g.dataType ∧ P value entry

variable {P Q : Value → Mapping → Prop} {g g' g'' : Group}

theorem Extends.refl (g : Group) : g.Extends P g :=
  ⟨rfl, rfl, rfl, fun _ _ _ h => h, fun _ _ _ h => .inl h⟩

theorem Extends.trans (h : g.Extends P g') (h' : g'.Extends P g'') : g.Extends P g'' where
  key := h'.key.trans h.key
  dataType := h'.dataType.trans h.dataType
  flags := h'.flags.trans h.flags
  kept s value entry hentry := h'.kept s value entry (h.kept s value entry hentry)
  added s value entry hentry := by
    rcases h'.added s value entry hentry with hentry | ⟨htype, hP⟩
    · exact h.added s value entry hentry
    · exact .inr ⟨htype.trans h.dataType, hP⟩

theorem Extends.mono (h : g.Extends P g')
    (hPQ : ∀ value entry, value.dataType = g.dataType → P value entry → Q value entry) :
    g.Extends Q g' where
  key := h.key
  dataType := h.dataType
  flags := h.flags
  kept := h.kept
  added s value entry hentry :=
    (h.added s value entry hentry).imp_right fun ⟨htype, hP⟩ => ⟨htype, hPQ value entry htype hP⟩

theorem get?_table_setTable (g : Group) (s s' : Scope) (t : Mappings) :
    (g.setTable s t).table s' = if s' = s then t else g.table s' := by
  simp only [table, setTable, Table.get?_set]
  split_ifs <;> rfl

/-- A scope gets its table before something is mapped in it. -/
theorem extends_setTable_self (g : Group) (s : Scope) :
    g.Extends P (g.setTable s (g.table s)) := by
  have htable (s' : Scope) : (g.setTable s (g.table s)).table s' = g.table s' := by
    rw [get?_table_setTable]
    split_ifs with hs
    · rw [hs]
    · rfl
  refine ⟨rfl, rfl, rfl, ?_, ?_⟩
  · intro s' value entry h
    rwa [htable]
  · intro s' value entry h
    rw [htable] at h
    exact .inl h

/-- A value is mapped where nothing was mapped before. -/
theorem extends_insertKey {s : Scope} {value : Value} {entry : Mapping}
    (htype : value.dataType = g.dataType) (hP : P value entry)
    (h : g.insertKey s value entry = .ok g') : g.Extends P g' := by
  simp only [insertKey] at h
  split_ifs at h with hnew
  obtain rfl := Except.ok.inj h
  have hnone : (g.table s).get? value = none := by simpa [Table.contains] using hnew
  refine ⟨rfl, rfl, rfl, ?_, ?_⟩
  · intro s' value' entry' hentry
    rw [get?_table_setTable]
    split_ifs with hs
    · subst hs
      rw [Table.get?_set, if_neg, hentry]
      rintro rfl
      cases hnone.symm.trans hentry
    · exact hentry
  · intro s' value' entry' hentry
    rw [get?_table_setTable] at hentry
    split_ifs at hentry with hs
    · subst hs
      rw [Table.get?_set] at hentry
      split_ifs at hentry with hvalue
      · subst hvalue
        obtain rfl := Option.some.inj hentry
        exact .inr ⟨htype, hP⟩
      · exact .inl hentry
    · exact .inl hentry

theorem extends_insert {s : Scope} {value : Value} {strict : Bool} {e : Expr}
    (h : g.insert s value strict e = .ok g') :
    g.Extends (fun key entry => entry.expr = e ∧ value.convertExact key.dataType = some key) g' := by
  unfold insert at h
  split at h
  · cases h
  · rename_i key hkey
    have htype := Value.dataType_of_convertExact hkey
    exact extends_insertKey htype ⟨rfl, htype ▸ hkey⟩ h

theorem extends_insertAll {s : Scope} {strict : Bool} {entries : List (Value × Expr)} {added : Nat}
    (h : ∀ p ∈ entries, p.1.dataType = g.dataType ∧ P p.1 ⟨strict, p.2⟩) :
    g.Extends P (g.insertAll s strict entries added).1 := by
  induction entries generalizing g added with
  | nil => exact .refl g
  | cons p entries ih =>
    have ⟨⟨htype, hP⟩, hrest⟩ := List.forall_mem_cons.1 h
    unfold insertAll
    split
    · exact .refl g
    · rename_i g' hg'
      have hfirst := extends_insertKey htype hP hg'
      exact hfirst.trans (ih fun q hq => hfirst.dataType ▸ hrest q hq)

end Group

/-! ## Wildcards -/

namespace Group

variable {g : Group}

/-- The reference that a wildcard expands to finds the constant again, with the
    type that it was declared with. -/
theorem standsFor_expansion {f : FieldRef} {name : String} {c : Constant} {key : Value} {e : Expr}
    (hc : r.constant? f.owner name = some c) (h : g.expansion? f name c = some (key, e)) :
    key.dataType = g.dataType ∧ e.StandsFor r key := by
  unfold expansion? at h
  split_ifs at h with hs
  obtain ⟨key', hkey, h⟩ := Option.map_eq_some_iff.1 h
  cases h
  have hk := Value.dataType_of_convertExact hkey
  refine ⟨hk, c.value, ?_, hk ▸ hkey⟩
  simp [Expr.evaluate, Registry.fieldConstant, Registry.findConstant?_of_constant? hc, Except.map]

theorem extends_insertWildcard (g : Group) (s : Scope) (strict : Bool) (f : FieldRef) :
    g.Extends (fun key entry => entry.expr.StandsFor r key) (g.insertWildcard r s strict f).1 := by
  unfold insertWildcard
  split
  · exact .refl g
  · rename_i all hall
    refine (extends_setTable_self g s).trans (extends_insertAll fun ⟨key, e⟩ hp => ?_)
    obtain ⟨⟨name, c⟩, hc, hp⟩ := List.mem_filterMap.1 hp
    exact standsFor_expansion (r.declared _ _ hall _ _ hc) hp

/-- What is inserted for an expression stands for the value that it is mapped
    under. -/
theorem extends_insertExpr (r : Registry) (g : Group) (s : Scope) (strict : Bool) (e : Expr) :
    g.Extends (fun key entry => entry.expr.StandsFor r key) (g.insertExpr r s strict e).1 := by
  have hsingle {g' : Group}
      (h : (e.evaluate r).mapError GroupError.eval >>= (g.insert s · strict e) = .ok g') :
      g.Extends (fun key entry => entry.expr.StandsFor r key) g' := by
    obtain ⟨v, hv, h⟩ := bind_eq_ok.1 h
    refine (extends_insert h).mono ?_
    rintro key entry - ⟨hentry, hkey⟩
    exact ⟨v, hentry ▸ mapError_eq_ok.1 hv, hkey⟩
  unfold insertExpr
  cases h : (e.evaluate r).mapError GroupError.eval >>= (g.insert s · strict e) with
  | error err =>
    dsimp only
    split
    · split_ifs
      · exact extends_insertWildcard g s strict _
      · exact .refl g
    · exact .refl g
  | ok g' =>
    dsimp only
    split
    · split_ifs
      · exact extends_insertWildcard g s strict _
      · exact hsingle h
    · exact hsingle h

end Group

/-! ## Stores -/

namespace Store

variable {s t : Store} {k : GroupKey}

/-- Groups are found by their key, and what they map is of their type. -/
def WellFormed (s : Store) : Prop :=
  ∀ k g, s.group? k = some g → g.key = k ∧
    ∀ scope value entry, (g.table scope).get? value = some entry → value.dataType = g.dataType

/-- Every group is still there, with its type, its flags bit and its entries. -/
def Extends (s t : Store) : Prop :=
  ∀ k g, s.group? k = some g → ∃ g', t.group? k = some g' ∧ g.Extends (fun _ _ => True) g'

theorem Extends.refl (s : Store) : s.Extends s := fun _ g hg => ⟨g, hg, .refl g⟩

theorem Extends.trans {u : Store} (h : s.Extends t) (h' : t.Extends u) : s.Extends u := by
  intro k g hg
  obtain ⟨g', hg', hext⟩ := h k g hg
  obtain ⟨g'', hg'', hext'⟩ := h' k g' hg'
  exact ⟨g'', hg'', hext.trans hext'⟩

theorem group?_setGroup (s : Store) (g : Group) (k : GroupKey) :
    (s.setGroup g).group? k = if k = g.key then some g else s.group? k :=
  Table.get?_set ..

/-- A change that extends a group changes no other one. -/
theorem group?_modify (hs : s.WellFormed) {f : Group → Group} {P : Value → Mapping → Prop}
    (hf : ∀ g : Group, g.Extends P (f g)) (k' : GroupKey) :
    (s.modify k f).group? k' = if k' = k then (s.group? k).map f else s.group? k' := by
  unfold modify
  cases hg : s.group? k with
  | none =>
    split_ifs with hk
    · rw [hk]
      exact hg
    · rfl
  | some g =>
    rw [Option.elim_some, group?_setGroup, (hf g).key, (hs k g hg).1]
    rfl

/-! ### Calls -/

/-- A call on a group keeps the store well formed. -/
theorem wellFormed_modify (hs : s.WellFormed) {f : Group → Group} {P : Value → Mapping → Prop}
    (hf : ∀ g : Group, g.Extends P (f g)) : (s.modify k f).WellFormed := by
  intro k' g' hg'
  rw [group?_modify hs hf] at hg'
  split_ifs at hg' with hk
  · subst hk
    obtain ⟨g, hg, rfl⟩ := Option.map_eq_some_iff.1 hg'
    obtain ⟨hkey, htyped⟩ := hs k' g hg
    refine ⟨(hf g).key.trans hkey, ?_⟩
    intro scope value entry hentry
    rw [(hf g).dataType]
    rcases (hf g).added scope value entry hentry with hentry | ⟨htype, -⟩
    · exact htyped scope value entry hentry
    · exact htype
  · exact hs k' g' hg'

theorem extends_modify (hs : s.WellFormed) {f : Group → Group} {P : Value → Mapping → Prop}
    (hf : ∀ g : Group, g.Extends P (f g)) : s.Extends (s.modify k f) := by
  intro k' g hg
  rw [group?_modify hs hf]
  split_ifs with hk
  · subst hk
    rw [hg]
    exact ⟨f g, rfl, (hf g).mono fun _ _ _ _ => trivial⟩
  · exact ⟨g, hg, .refl g⟩

/-- A new group is empty. -/
theorem wellFormed_setGroup_empty (hs : s.WellFormed) (type : DataType) (flags : Bool) :
    (s.setGroup (.empty k type flags)).WellFormed := by
  intro k' g hg
  rw [group?_setGroup] at hg
  split_ifs at hg with hk
  · obtain rfl := Option.some.inj hg
    refine ⟨hk.symm, ?_⟩
    intro scope value entry hentry
    cases hentry
  · exact hs k' g hg

theorem extends_setGroup_empty (hnew : s.group? k = none) (type : DataType) (flags : Bool) :
    s.Extends (s.setGroup (.empty k type flags)) := by
  intro k' g hg
  rw [group?_setGroup, if_neg]
  · exact ⟨g, hg, .refl g⟩
  · rintro rfl
    cases hnew.symm.trans hg

/-- An insertion that is refused changes nothing. -/
theorem extends_insert_getD (g : Group) (scope : Scope) (value : Value) (strict : Bool) (e : Expr) :
    g.Extends (fun _ _ => True) ((g.insert scope value strict e).toOption.getD g) := by
  cases h : g.insert scope value strict e with
  | error err => exact .refl g
  | ok g' => exact (Group.extends_insert h).mono fun _ _ _ _ => trivial

/-- **One call.** It keeps the store well formed and extends it. -/
theorem wellFormed_after (r : Registry) (hs : s.WellFormed) (step : BuildStep) :
    (s.after r step).WellFormed ∧ s.Extends (s.after r step) := by
  cases step with
  | declare name type flags =>
    cases hg : s.group? (.named name) with
    | none =>
      simp only [after, declare, hg, Except.toOption, Option.elim_some]
      exact ⟨wellFormed_setGroup_empty hs type flags, extends_setGroup_empty hg type flags⟩
    | some g =>
      simp only [after, declare, hg]
      split_ifs
      · exact ⟨hs, .refl s⟩
      · exact ⟨hs, .refl s⟩
  | declareDefault type =>
    cases hg : s.group? (.default type) with
    | none =>
      simp only [after, declareDefault, hg]
      exact ⟨wellFormed_setGroup_empty hs type false, extends_setGroup_empty hg type false⟩
    | some g =>
      simp only [after, declareDefault, hg]
      exact ⟨hs, .refl s⟩
  | insert k scope value strict expr =>
    have hf (g : Group) := extends_insert_getD g scope value strict expr
    exact ⟨wellFormed_modify hs hf, extends_modify hs hf⟩
  | insertExpr k scope strict expr =>
    have hf (g : Group) := Group.extends_insertExpr r g scope strict expr
    exact ⟨wellFormed_modify hs hf, extends_modify hs hf⟩

/-- A sequence of calls. -/
theorem wellFormed_foldl_after (r : Registry) (hs : s.WellFormed) (steps : List BuildStep) :
    (s.build r steps).WellFormed ∧ s.Extends (s.build r steps) := by
  induction steps generalizing s with
  | nil => exact ⟨hs, .refl s⟩
  | cons step steps ih =>
    obtain ⟨hafter, hext⟩ := wellFormed_after r hs step
    obtain ⟨hbuild, hext'⟩ := ih hafter
    exact ⟨hbuild, hext.trans hext'⟩

/-- What is mapped after an expression was inserted was mapped before, or it
    stands for the value that it is mapped under. -/
theorem standsFor_of_after_insertExpr (hs : s.WellFormed) {k' : GroupKey} {scope scope' : Scope}
    {strict : Bool} {expr : Expr} {g' : Group} {value : Value} {entry : Mapping}
    (hg' : (s.after r (.insertExpr k scope strict expr)).group? k' = some g')
    (hentry : (g'.table scope').get? value = some entry)
    (hnew : s.mapping? k' scope' value = none) :
    ∃ v, entry.expr.evaluate r = .ok v ∧ v.convertExact g'.dataType = some value := by
  have hf (g : Group) := Group.extends_insertExpr r g scope strict expr
  rw [after, group?_modify hs hf] at hg'
  split_ifs at hg' with hk
  · subst hk
    obtain ⟨g, hg, rfl⟩ := Option.map_eq_some_iff.1 hg'
    rw [mapping?, hg, Option.bind_some] at hnew
    rcases (hf g).added scope' value entry hentry with hold | ⟨htype, v, hv, hconvert⟩
    · cases hnew.symm.trans hold
    · exact ⟨v, hv, by rwa [(hf g).dataType, ← htype]⟩
  · rw [mapping?, hg', Option.bind_some] at hnew
    cases hnew.symm.trans hentry

/-- **Mapping data stays well formed while it is built.**  After any calls,
    whether they succeeded or not: what a group maps is of its type; further calls leave every
    group its type, its flags bit and its entries; and an entry that inserting an expression adds
    has an expression whose value converts exactly to the value that it is mapped under. -/
theorem wellFormed_build (r : Registry) (steps : List BuildStep) :
    (∀ k g scope value entry, (empty.build r steps).group? k = some g →
      (g.table scope).get? value = some entry → value.dataType = g.dataType) ∧
    (∀ more k g, (empty.build r steps).group? k = some g →
      ∃ g', (empty.build r (steps ++ more)).group? k = some g' ∧ g'.dataType = g.dataType ∧
        g'.flags = g.flags ∧ ∀ scope value entry, (g.table scope).get? value = some entry →
          (g'.table scope).get? value = some entry) ∧
    ∀ k scope strict expr k' g' scope' value entry,
      (empty.build r (steps ++ [.insertExpr k scope strict expr])).group? k' = some g' →
      (g'.table scope').get? value = some entry →
      (empty.build r steps).mapping? k' scope' value = none →
      ∃ v, entry.expr.evaluate r = .ok v ∧ v.convertExact g'.dataType = some value := by
  have hempty : Store.empty.WellFormed := by
    intro k g hg
    cases hg
  have hwell : (empty.build r steps).WellFormed := (wellFormed_foldl_after r hempty steps).1
  have happend (more : List BuildStep) :
      empty.build r (steps ++ more) = (empty.build r steps).build r more := List.foldl_append ..
  refine ⟨?_, ?_, ?_⟩
  · intro k g scope value entry hg hentry
    exact (hwell k g hg).2 scope value entry hentry
  · intro more k g hg
    obtain ⟨g', hg', hext⟩ := (wellFormed_foldl_after r hwell more).2 k g hg
    rw [happend]
    exact ⟨g', hg', hext.dataType, hext.flags, hext.kept⟩
  · intro k scope strict expr k' g' scope' value entry hg' hentry hnew
    rw [happend] at hg'
    exact standsFor_of_after_insertExpr hwell hg' hentry hnew

end Store

end ConstRestore
