/-
  How well greedy covers do, and which of two covers is taken.

  * `greedy_spec`: the flags of a greedy cover have together all patterns inside
    the target, each of them adds a bit and has no more than those before it, no
    pattern occurs twice, and the most specific table names it;
  * `residual_eq_zero_iff`: so the cover leaves bits only if no combination of
    patterns is the target;
  * `decompose_bestChoice`: when a value has no decomposition, when it is the
    complement of the flags of all other bits, and when an OR of flags with or
    without a literal.
-/
import ConstRestore.Proofs.Combination

namespace ConstRestore

variable {mask target p : UInt64} {tables : List Mappings}

/-! ## Unions of patterns -/

/-- The OR of patterns. -/
def orAll (ps : List UInt64) : UInt64 := ps.foldl (· ||| ·) 0

theorem orAll_append_singleton (ps : List UInt64) (p : UInt64) :
    orAll (ps ++ [p]) = orAll ps ||| p := by
  rw [orAll, List.foldl_append]
  rfl

theorem bit_orAll (ps : List UInt64) (j : Nat) : bit (orAll ps) j = ps.any (bit · j) := by
  induction ps using List.reverseRecOn with
  | nil => exact bit_zero j
  | append_singleton ps p ih =>
    rw [orAll_append_singleton, bit_or, ih, List.any_append]
    simp

theorem Inside.trans {q : UInt64} (h : Inside p q) (h' : Inside q target) : Inside p target :=
  inside_iff.2 fun j hj => inside_iff.1 h' j (inside_iff.1 h j hj)

theorem Inside.antisymm {q : UInt64} (h : Inside p q) (h' : Inside q p) : p = q :=
  ext_bit fun j _ => Bool.eq_iff_iff.2 ⟨inside_iff.1 h j, inside_iff.1 h' j⟩

theorem orAll_inside_iff {ps : List UInt64} :
    Inside (orAll ps) target ↔ ∀ p ∈ ps, Inside p target := by
  simp only [inside_iff, bit_orAll, List.any_eq_true]
  exact ⟨fun h p hp j hj => h j ⟨p, hp, hj⟩, fun h j ⟨p, hp, hj⟩ => h p hp j hj⟩

theorem inside_orAll {ps : List UInt64} (h : p ∈ ps) : Inside p (orAll ps) :=
  orAll_inside_iff.1 (inside_iff.2 fun _ hj => hj) p h

/-! ## Greedy covers -/

section Cover

variable {flags : List Flag}

theorem covered_eq (target : UInt64) (flags : List Flag) :
    (cover target flags).covered = orAll ((cover target flags).flags.map (·.bits)) := by
  refine ext_bit fun j _ => ?_
  rw [(cover_spec target flags).bit_covered j, bit_orAll, List.any_map]
  rfl

/-- No flag inside the target is left out for good. -/
theorem inside_covered {f : Flag} (hf : f ∈ flags) (h : Inside f.bits target) :
    Inside f.bits (cover target flags).covered := by
  induction flags using List.reverseRecOn with
  | nil => cases hf
  | append_singleton flags g ih =>
    have hgrows : Inside (cover target flags).covered (cover target (flags ++ [g])).covered := by
      rw [cover_append_singleton, inside_iff]
      intro j hj
      split_ifs
      · simp [hj]
      · exact hj
    rcases List.mem_append.1 hf with hf | hf
    · exact (ih hf).trans hgrows
    · obtain rfl := List.mem_singleton.1 hf
      rw [cover_append_singleton]
      -- the flag is taken, unless its bits are covered already
      split_ifs with hnew
      · exact inside_iff.2 fun j hj => by simp [hj]
      · by_contra hout
        exact hnew ⟨h, hout⟩

/-- Each flag of a cover has a bit that the flags before it lack. -/
theorem cover_adds {i : Nat} {f : Flag} (h : (cover target flags).flags[i]? = some f) :
    ¬Inside f.bits (orAll (((cover target flags).flags.take i).map (·.bits))) := by
  induction flags using List.reverseRecOn with
  | nil => cases h
  | append_singleton flags g ih =>
    rw [cover_append_singleton] at h ⊢
    split_ifs at h ⊢ with hnew
    · rcases Nat.lt_or_ge i (cover target flags).flags.length with hi | hi
      · rw [List.getElem?_append_left hi] at h
        rw [List.take_append_of_le_length hi.le]
        exact ih h
      · obtain ⟨rfl, rfl⟩ : i = (cover target flags).flags.length ∧ f = g := by
          rw [List.getElem?_append_right hi, List.getElem?_singleton] at h
          split_ifs at h with hi'
          exact ⟨by omega, (Option.some.inj h).symm⟩
        rw [List.take_left, ← covered_eq]
        exact hnew.2
    · exact ih h

end Cover

/-- The greedy cover of a target by the flags of tables. -/
def greedy (mask : UInt64) (tables : List Mappings) (target : UInt64) : Cover :=
  cover target (flagsOf mask tables)

/-- What a greedy cover is. -/
structure Cover.Greedy (c : Cover) (mask : UInt64) (tables : List Mappings) (target : UInt64) :
    Prop where
  /-- Together the flags have the bits of all patterns inside the target. -/
  union : ∀ j, bit (orAll (c.flags.map (·.bits))) j ↔
    ∃ p ∈ patterns mask tables, Inside p target ∧ bit p j
  /-- Each flag has a bit that the flags before it lack. -/
  adds : ∀ i f, c.flags[i]? = some f → ¬Inside f.bits (orAll ((c.flags.take i).map (·.bits)))
  /-- None has more bits than one before it. -/
  descending : c.flags.Pairwise fun f g => bitCount g.bits ≤ bitCount f.bits
  distinct : (c.flags.map (·.bits)).Nodup
  /-- The most specific table with its pattern names a flag. -/
  named : ∀ f ∈ c.flags, ∃ entry, MostSpecific mask f.bits tables entry ∧ entry.expr = f.expr

theorem greedy_spec (mask : UInt64) (tables : List Mappings) (target : UInt64) :
    (greedy mask tables target).Greedy mask tables target := by
  have hcov := cover_spec target (flagsOf mask tables)
  refine ⟨fun j => ?_, fun i f => cover_adds, (pairwise_flagsOf mask tables).sublist hcov.sublist,
    ?_, fun f hf => (mem_flagsOf (hcov.mem f hf)).2⟩
  · rw [greedy, ← covered_eq]
    constructor
    · intro hj
      rw [hcov.bit_covered j] at hj
      obtain ⟨f, hf, hfj⟩ := List.any_eq_true.1 hj
      refine ⟨f.bits, mem_patterns_of_mem_flagsOf (hcov.mem f hf), ?_, hfj⟩
      refine inside_iff.2 fun i hi => hcov.within i ?_
      rw [hcov.bit_covered i]
      exact List.any_eq_true.2 ⟨f, hf, hi⟩
    · rintro ⟨p, hp, hin, hj⟩
      obtain ⟨f, hf, rfl⟩ := exists_mem_flagsOf hp
      exact inside_iff.1 (inside_covered hf hin) j hj
  · exact (nodup_flagsOf mask tables).sublist (hcov.sublist.map _)

/-! ## Combinations of patterns -/

/-- Patterns of tables have together exactly the bits of the target. -/
def Composes (mask : UInt64) (tables : List Mappings) (target : UInt64) (ps : List UInt64) : Prop :=
  (∀ p ∈ ps, p ∈ patterns mask tables) ∧ orAll ps = target

theorem inside_of_composes {ps : List UInt64} (h : Composes mask tables target ps) (hp : p ∈ ps) :
    Inside p target :=
  h.2 ▸ inside_orAll hp

/-- The patterns inside the target are those of the flags, taken together. -/
theorem Cover.Greedy.inside_iff {c : Cover} (h : c.Greedy mask tables target)
    (hp : p ∈ patterns mask tables) :
    Inside p target ↔ Inside p (orAll (c.flags.map (·.bits))) := by
  constructor
  · exact fun hin => ConstRestore.inside_iff.2 fun j hj => (h.union j).2 ⟨p, hp, hin, hj⟩
  · intro hin
    refine hin.trans (ConstRestore.inside_iff.2 fun j hj => ?_)
    obtain ⟨q, -, hq, hqj⟩ := (h.union j).1 hj
    exact ConstRestore.inside_iff.1 hq j hqj

/-- **A greedy cover leaves bits only if no combination of patterns is the target.** -/
theorem residual_eq_zero_iff :
    (greedy mask tables target).residual target = 0 ↔ ∃ ps, Composes mask tables target ps := by
  have hg := greedy_spec mask tables target
  have hcov := cover_spec target (flagsOf mask tables)
  change Inside target (cover target (flagsOf mask tables)).covered ↔ _
  constructor
  · intro h
    refine ⟨(greedy mask tables target).flags.map (·.bits), ?_, ?_⟩
    · rintro p hp
      obtain ⟨f, hf, rfl⟩ := List.mem_map.1 hp
      exact mem_patterns_of_mem_flagsOf (hcov.mem f hf)
    · rw [greedy, ← covered_eq]
      exact Inside.antisymm (inside_iff.2 hcov.within) h
  · rintro ⟨ps, hps⟩
    rw [covered_eq, ← hps.2]
    exact orAll_inside_iff.2 fun p hp =>
      hps.2 ▸ (hg.inside_iff (hps.1 p hp)).1 (inside_of_composes hps hp)

theorem flags_ne_nil_iff :
    (greedy mask tables target).flags ≠ [] ↔ ∃ p ∈ patterns mask tables, Inside p target := by
  have hg := greedy_spec mask tables target
  have hcov := cover_spec target (flagsOf mask tables)
  constructor
  · intro h
    obtain ⟨f, hf⟩ := List.exists_mem_of_ne_nil _ h
    have hp := mem_patterns_of_mem_flagsOf (hcov.mem f hf)
    exact ⟨f.bits, hp, (hg.inside_iff hp).2 (inside_orAll (List.mem_map_of_mem hf))⟩
  · rintro ⟨p, hp, hin⟩ hnil
    have := (hg.inside_iff hp).1 hin
    rw [hnil] at this
    exact hp.1 (eq_zero_iff_bit.2 fun j _ => by simpa using mt (inside_iff.1 this j) (by simp [orAll]))

/-- A combination of patterns for all bits of a nonempty target is itself not empty. -/
theorem exists_composes_ne_nil_iff :
    (∃ ps ≠ [], Composes mask tables target ps) ↔
      (greedy mask tables target).residual target = 0 ∧ (greedy mask tables target).flags ≠ [] := by
  rw [residual_eq_zero_iff, flags_ne_nil_iff]
  constructor
  · rintro ⟨ps, hne, hps⟩
    obtain ⟨p, hp⟩ := List.exists_mem_of_ne_nil _ hne
    exact ⟨⟨ps, hps⟩, p, hps.1 p hp, inside_of_composes hps hp⟩
  · rintro ⟨⟨ps, hps⟩, p, hp, hin⟩
    refine ⟨ps, ?_, hps⟩
    rintro rfl
    obtain rfl := hps.2
    exact hp.1 (by simpa [Inside, orAll] using hin)

/-- The bits that a greedy cover leaves have no pattern inside. -/
theorem not_inside_residual (hp : p ∈ patterns mask tables) :
    ¬Inside p ((greedy mask tables target).residual target) := by
  intro hin
  have hres {j : Nat} (hj : bit p j) :
      bit target j ∧ ¬bit (greedy mask tables target).covered j := by
    have hj64 : j < 64 := Nat.lt_of_not_le fun h => by simp [bit_of_le p h] at hj
    simpa [bit_residual _ _ hj64] using inside_iff.1 hin j hj
  have htarget : Inside p target := inside_iff.2 fun j hj => (hres hj).1
  have hcov := ((greedy_spec mask tables target).inside_iff hp).1 htarget
  rw [greedy, ← covered_eq] at hcov
  exact hp.1 (eq_zero_iff_bit.2 fun j _ => Bool.eq_false_iff.2 fun hj =>
    (hres hj).2 (inside_iff.1 hcov j hj))

/-! ## The shape of a decomposition -/

/-- The bits of a mask that a target lacks. -/
def opposite (mask target : UInt64) : UInt64 := ~~~target &&& mask

/-- The flags of all other bits are a better choice than the flags of the target. -/
structure PrefersComplement (mask : UInt64) (tables : List Mappings) (target : UInt64) : Prop where
  /-- No combination of patterns is the target. -/
  leaves : ¬∃ ps, Composes mask tables target ps
  /-- One is all other bits. -/
  whole : ∃ ps ≠ [], Composes mask tables (opposite mask target) ps
  fewer : (greedy mask tables (opposite mask target)).flags.length <
    (greedy mask tables target).flags.length

theorem prefersComplement_iff :
    PrefersComplement mask tables target ↔
      (greedy mask tables target).residual target ≠ 0 ∧
        (greedy mask tables (opposite mask target)).residual (opposite mask target) = 0 ∧
        (greedy mask tables (opposite mask target)).flags ≠ [] ∧
        (greedy mask tables (opposite mask target)).flags.length <
          (greedy mask tables target).flags.length := by
  rw [Ne, residual_eq_zero_iff]
  constructor
  · rintro ⟨hleaves, hwhole, hfewer⟩
    obtain ⟨hres, hne⟩ := exists_composes_ne_nil_iff.1 hwhole
    exact ⟨hleaves, hres, hne, hfewer⟩
  · rintro ⟨hleaves, hres, hne, hfewer⟩
    exact ⟨hleaves, exists_composes_ne_nil_iff.2 ⟨hres, hne⟩, hfewer⟩

instance : Decidable (PrefersComplement mask tables target) :=
  decidable_of_iff _ prefersComplement_iff.symm

theorem PrefersComplement.ne_zero (h : PrefersComplement mask tables target) : target ≠ 0 := by
  rintro rfl
  exact h.leaves ⟨[], fun _ hp => absurd hp List.not_mem_nil, rfl⟩

theorem PrefersComplement.ne_mask (h : PrefersComplement mask tables target) : target ≠ mask := by
  rintro rfl
  obtain ⟨ps, hne, hps⟩ := h.whole
  obtain ⟨p, hp⟩ := List.exists_mem_of_ne_nil _ hne
  have hin := inside_of_composes hps hp
  exact (hps.1 p hp).1 (by simpa [Inside, opposite] using hin)

theorem Cover.expr?_eq_none_iff {c : Cover} : c.expr? = none ↔ c.flags = [] := by
  obtain ⟨flags, covered⟩ := c
  cases flags <;> simp [expr?]

/-- A combination of flags is itself a complement only if it is a flag alone. -/
theorem Cover.exists_flag_of_complement {c : Cover} {e : Expr}
    (h : c.expr? = some (.unary .complement e)) : ∃ f ∈ c.flags, f.expr = .unary .complement e := by
  refine expr?_induction (P := fun fs e' => e' = .unary .complement e →
    ∃ f ∈ fs, f.expr = .unary .complement e) ?_ ?_ h rfl
  · exact fun f hf => ⟨f, List.mem_cons_self, hf⟩
  · rintro _ _ _ _ ⟨⟩

/-- The flags that a combination for the target is made of. -/
def chosen (mask : UInt64) (tables : List Mappings) (target : UInt64) : List Flag :=
  if target = 0 ∨ target = mask then []
  else if PrefersComplement mask tables target then
    (greedy mask tables (opposite mask target)).flags
  else (greedy mask tables target).flags

theorem mem_flagsOf_of_mem_chosen {f : Flag} (h : f ∈ chosen mask tables target) :
    f ∈ flagsOf mask tables := by
  unfold chosen at h
  split_ifs at h
  · cases h
  · exact (cover_spec _ _).mem f h
  · exact (cover_spec _ _).mem f h

theorem inside_mask {value : Value} (hv : value.pattern? mask = some target) :
    Inside target mask := by
  obtain ⟨bits, -, rfl⟩ := Option.map_eq_some_iff.1 hv
  exact inside_iff.2 fun j hj => by simp_all

theorem width_residualLiteral {narrow : DataType} {m : Nat} (hm : narrow.width? = some m)
    {bits : UInt64} {l : Literal} (h : residualLiteral bits narrow = .literal l) :
    ∃ k, l.value.dataType.width? = some k ∧ m ≤ k := by
  unfold residualLiteral at h
  split_ifs at h with hlong
  · cases h
    exact ⟨64, rfl, width?_le hm⟩
  · cases h
    refine ⟨32, rfl, ?_⟩
    cases narrow with
    | long => exact absurd rfl hlong
    | byte | short | char | int => cases hm; decide
    | float | double | string | class_ => cases hm

section Decompose

variable {narrow : DataType} (hm : narrow.mask? = some mask)

include hm

theorem decompose_eq {value : Value} (hv : value.pattern? mask = some target) :
    decompose tables value narrow =
      if target = 0 ∨ target = mask then none
      else if PrefersComplement mask tables target then
        (greedy mask tables (opposite mask target)).expr?.map (.unary .complement)
      else (greedy mask tables target).expr?.map fun e =>
        if (greedy mask tables target).residual target = 0 then e
        else .binary .or e (residualLiteral ((greedy mask tables target).residual target) narrow) := by
  obtain ⟨bits, hbits, rfl⟩ := Option.map_eq_some_iff.1 hv
  rw [decompose, hm, hbits]
  change (if bits &&& mask = 0 ∨ bits &&& mask = mask then none else _) = _
  refine if_congr Iff.rfl rfl (if_congr prefersComplement_iff.symm rfl ?_)
  change (greedy mask tables (bits &&& mask)).expr?.bind (fun e =>
    if (greedy mask tables (bits &&& mask)).residual (bits &&& mask) = 0 then some e else _) = _
  cases (greedy mask tables (bits &&& mask)).expr? with
  | none => rfl
  | some e =>
    rw [Option.bind_some, Option.map_some]
    split_ifs <;> rfl

theorem decompose_eq_none_iff {value : Value} (hv : value.pattern? mask = some target) :
    decompose tables value narrow = none ↔
      target = 0 ∨ target = mask ∨ ¬∃ p ∈ patterns mask tables, Inside p target := by
  have hfewer (h : PrefersComplement mask tables target) :
      ∃ p ∈ patterns mask tables, Inside p target :=
    flags_ne_nil_iff.1 (List.ne_nil_of_length_pos (Nat.zero_lt_of_lt h.fewer))
  rw [decompose_eq hm hv, ← or_assoc]
  by_cases htarget : target = 0 ∨ target = mask
  · rw [if_pos htarget]
    exact iff_of_true rfl (.inl htarget)
  rw [if_neg htarget]
  by_cases hcomplement : PrefersComplement mask tables target
  · rw [if_pos hcomplement, Option.map_eq_none_iff, Cover.expr?_eq_none_iff]
    have hne := (prefersComplement_iff.1 hcomplement).2.2.1
    exact iff_of_false hne (not_or_intro htarget (not_not_intro (hfewer hcomplement)))
  · rw [if_neg hcomplement, Option.map_eq_none_iff, Cover.expr?_eq_none_iff, ← flags_ne_nil_iff,
      not_not, or_iff_right htarget]

/-- The literal for the bits that a cover leaves has these bits, and they have no
    decomposition. -/
theorem residualLiteral_alone (tables : List Mappings) {value : Value}
    (hv : value.pattern? mask = some target) :
    ∃ l, residualLiteral ((greedy mask tables target).residual target) narrow = .literal l ∧
      l.value.pattern? mask = some ((greedy mask tables target).residual target) ∧
      decompose tables l.value narrow = none := by
  obtain ⟨m, hwidth, -⟩ := Option.map_eq_some_iff.1 hm
  have hm64 := width?_le hwidth
  obtain ⟨l, i, hl, hi, hbits⟩ :=
    residualLiteral_spec hwidth ((greedy mask tables target).residual target)
  obtain ⟨k, hk, hmk⟩ := width_residualLiteral hwidth hl
  obtain ⟨bits, hbits'⟩ := Value.exists_bits hi
  have hpattern : l.value.pattern? mask =
      some ((greedy mask tables target).residual target) := by
    rw [Value.pattern?, hbits', Option.map_some, Option.some.injEq]
    refine ext_bit fun j hj => ?_
    rw [bit_and, bit_mask hwidth hm hj, Value.bit_of_bits hk hi hbits' hj]
    by_cases hjm : j < m
    · simp [hbits j hjm, hjm, show j < k by omega]
    · -- above the width neither the target nor the literal has a bit
      have htarget : bit target j = false := by
        refine Bool.eq_false_iff.2 fun htj => hjm ?_
        simpa [bit_mask hwidth hm hj] using inside_iff.1 (inside_mask hv) j htj
      simp [bit_residual _ _ hj, htarget, hjm]
  refine ⟨l, hl, hpattern, (decompose_eq_none_iff hm hpattern).2 (.inr (.inr ?_))⟩
  rintro ⟨p, hp, hin⟩
  exact not_inside_residual hp hin

/-- The complement of the flags of all other bits. -/
theorem decompose_of_prefersComplement (h : PrefersComplement mask tables target) {value : Value}
    (hv : value.pattern? mask = some target) :
    ∃ e, (greedy mask tables (opposite mask target)).expr? = some e ∧
      decompose tables value narrow = some (.unary .complement e) := by
  have hne := (prefersComplement_iff.1 h).2.2.1
  obtain ⟨e, he⟩ := Option.ne_none_iff_exists'.1 (mt Cover.expr?_eq_none_iff.1 hne)
  rw [decompose_eq hm hv, if_neg (not_or_intro h.ne_zero h.ne_mask), if_pos h, he]
  exact ⟨e, rfl, rfl⟩

/-- The OR of the flags of the target, alone if these are the target; if no flags are,
    with a literal for the bits left. -/
theorem decompose_of_not_prefersComplement (h : ¬PrefersComplement mask tables target)
    {value : Value} (hv : value.pattern? mask = some target) {e : Expr}
    (he : decompose tables value narrow = some e) :
    ∃ e', (greedy mask tables target).expr? = some e' ∧
      ((∃ ps, Composes mask tables target ps) ∧ e = e' ∨
        (¬∃ ps, Composes mask tables target ps) ∧ ∃ l, e = .binary .or e' (.literal l) ∧
          l.value.pattern? mask = some ((greedy mask tables target).residual target) ∧
          decompose tables l.value narrow = none) := by
  obtain ⟨l, hl, hpattern, hnone⟩ := residualLiteral_alone hm tables hv
  rw [decompose_eq hm hv, if_neg h] at he
  by_cases htarget : target = 0 ∨ target = mask
  · rw [if_pos htarget] at he
    cases he
  rw [if_neg htarget] at he
  obtain ⟨e', he', rfl⟩ := Option.map_eq_some_iff.1 he
  refine ⟨e', he', ?_⟩
  rw [← residual_eq_zero_iff]
  split_ifs with hres
  · exact .inl ⟨hres, rfl⟩
  · exact .inr ⟨hres, l, by rw [hl], hpattern, hnone⟩

end Decompose

/-- The combination that is chosen for a value with the bits `target` inside the mask of
    `narrow`. -/
structure BestChoice (narrow : DataType) (mask : UInt64) (tables : List Mappings) (value : Value)
    (target : UInt64) : Prop where
  none_iff : decompose tables value narrow = none ↔
    target = 0 ∨ target = mask ∨ ¬∃ p ∈ patterns mask tables, Inside p target
  /-- The complement of the flags of all other bits. -/
  complement : PrefersComplement mask tables target →
    ∃ e, (greedy mask tables (opposite mask target)).expr? = some e ∧
      decompose tables value narrow = some (.unary .complement e)
  /-- Otherwise the OR of the flags of the target, alone if these are the target; if no
      flags are, with a literal for the bits left, which has no decomposition of its own. -/
  direct : ¬PrefersComplement mask tables target → ∀ e, decompose tables value narrow = some e →
    ∃ e', (greedy mask tables target).expr? = some e' ∧
      ((∃ ps, Composes mask tables target ps) ∧ e = e' ∨
        (¬∃ ps, Composes mask tables target ps) ∧ ∃ l, e = .binary .or e' (.literal l) ∧
          l.value.pattern? mask = some ((greedy mask tables target).residual target) ∧
          decompose tables l.value narrow = none)
  /-- Only the first is a complement, where no table has one for a flag. -/
  complement_iff : (∀ p entry, MostSpecific mask p tables entry →
      ∀ e, entry.expr ≠ .unary .complement e) →
    ((∃ e, decompose tables value narrow = some (.unary .complement e)) ↔
      PrefersComplement mask tables target)
  flags : (greedy mask tables target).Greedy mask tables target
  oppositeFlags : (greedy mask tables (opposite mask target)).Greedy mask tables
    (opposite mask target)

/-- **The greedy covers decide the combination, and none is better.**  They have all
    bits that any combination of patterns has, so a literal or the complement is
    only taken where no flags are the target. -/
theorem decompose_bestChoice {narrow : DataType} (hm : narrow.mask? = some mask)
    (tables : List Mappings) {value : Value} (hv : value.pattern? mask = some target) :
    BestChoice narrow mask tables value target where
  none_iff := decompose_eq_none_iff hm hv
  complement h := decompose_of_prefersComplement hm h hv
  direct h _ := decompose_of_not_prefersComplement hm h hv
  complement_iff hplain := by
    constructor
    · rintro ⟨e, he⟩
      by_contra h
      obtain ⟨e', he', ⟨-, rfl⟩ | ⟨-, l, heq, -⟩⟩ :=
        decompose_of_not_prefersComplement hm h hv he
      · obtain ⟨f, hf, hfe⟩ := Cover.exists_flag_of_complement he'
        obtain ⟨entry, hentry, hexpr⟩ := (greedy_spec mask tables target).named f hf
        exact hplain _ entry hentry e (hexpr.trans hfe)
      · cases heq
    · intro h
      obtain ⟨e, -, he⟩ := decompose_of_prefersComplement hm h hv
      exact ⟨e, he⟩
  flags := greedy_spec ..
  oppositeFlags := greedy_spec ..

/-! ## Flags of a byte -/

/-- The static constant `p.G` of a name. -/
def flagField (name : String) : Expr := .field ⟨"p/G", some name, none, true⟩

/-- Two tables of `byte` flags, which both map 4. -/
def byteTables : List Mappings :=
  [(∅ : Mappings).set (.byte 4) ⟨false, flagField "LOCAL"⟩,
    ((((∅ : Mappings).set (.byte 1) ⟨false, flagField "BIT0"⟩).set (.byte 2)
      ⟨false, flagField "BIT1"⟩).set (.byte 4) ⟨false, flagField "BIT2"⟩).set (.byte 8)
      ⟨false, flagField "BIT3"⟩]

/-- All bits but one become the complement of the flag of this bit. -/
theorem decompose_bestChoice_allButOne :
    DataType.byte.mask? = some 255 ∧ (Value.byte (-5)).pattern? 255 = some 251 ∧
      decompose byteTables (.byte (-5)) .byte = some (.unary .complement (flagField "LOCAL")) ∧
      BestChoice .byte 255 byteTables (.byte (-5)) 251 :=
  ⟨by decide, by decide, by cbv, decompose_bestChoice (by decide) byteTables (by decide)⟩

end ConstRestore
