/-
  Tables whose entries come in another order.

  The order in which a table lists its entries does not decide which patterns
  a combination takes (`Rearranged.sameBits_chosen`), only which constant stands
  for a pattern that several values of one table have inside the mask.  So a
  combination is the same for all orders exactly if no flag taken has a second
  constant (`decompose_rearranged_iff`), as in a type at least as wide as the
  values (`Rearranged.decompose_of_width`).  `decompose_depends_on_order` is a
  narrower one.
-/
import ConstRestore.Proofs.Coverage

namespace ConstRestore

variable {mask target p : UInt64} {tables tables' : List Mappings} {t t' : Mappings}

/-! ## Flags with the same patterns -/

attribute [ext] Flag

/-- Flags with the same patterns in the same order, maybe of other constants. -/
def SameBits : List Flag → List Flag → Prop := List.Forall₂ fun f f' => f.bits = f'.bits

section SameBits

variable {fs fs' : List Flag}

theorem sameBits_iff : SameBits fs fs' ↔ fs.map (·.bits) = fs'.map (·.bits) := by
  rw [← List.forall₂_eq_eq_eq, List.forall₂_map_left_iff, List.forall₂_map_right_iff, SameBits]

theorem SameBits.any (h : SameBits fs fs') (p : UInt64) :
    fs.any (·.bits == p) = fs'.any (·.bits == p) := by
  have := congrArg (List.any · (· == p)) (sameBits_iff.1 h)
  simpa [List.any_map, Function.comp_def] using this

theorem SameBits.distinctFlags (h : SameBits fs fs') :
    SameBits (distinctFlags fs) (distinctFlags fs') := by
  refine List.rel_foldl (fun seen seen' hseen f f' hf => ?_) .nil h
  rw [SameBits.any hseen, hf]
  split_ifs
  · exact hseen
  · exact List.rel_append hseen (.cons hf .nil)

theorem SameBits.cover (h : SameBits fs fs') (target : UInt64) :
    SameBits (cover target fs).flags (cover target fs').flags ∧
      (cover target fs).covered = (cover target fs').covered := by
  refine List.rel_foldl (P := fun (c c' : Cover) => SameBits c.flags c'.flags ∧
    c.covered = c'.covered) (fun c c' hc f f' hf => ?_) ?_ h
  · rw [hf, hc.2]
    split_ifs
    · exact ⟨List.rel_append hc.1 (.cons hf .nil), rfl⟩
    · exact ⟨hc.1, hc.2⟩
  · exact ⟨.nil, rfl⟩

/-- An OR has all its operands. -/
theorem eq_of_foldl_or_eq (h : SameBits fs fs') {e e' : Expr}
    (he : fs.foldl (fun e g => .binary .or e g.expr) e =
      fs'.foldl (fun e g => .binary .or e g.expr) e') : e = e' ∧ fs = fs' := by
  induction h generalizing e e' with
  | nil => exact ⟨he, rfl⟩
  | cons hbits _ ih =>
    obtain ⟨hor, rfl⟩ := ih he
    obtain ⟨-, rfl, hexpr⟩ := Expr.binary.inj hor
    exact ⟨rfl, congrArg (· :: _) (Flag.ext hbits hexpr)⟩

end SameBits

theorem Cover.flags_eq_iff {c c' : Cover} (h : SameBits c.flags c'.flags) :
    c.expr? = c'.expr? ↔ c.flags = c'.flags := by
  obtain ⟨flags, covered⟩ := c
  obtain ⟨flags', covered'⟩ := c'
  constructor
  · intro he
    cases h with
    | nil => rfl
    | cons hbits hrest =>
      obtain ⟨hexpr, hfs⟩ := eq_of_foldl_or_eq hrest (Option.some.inj he)
      exact congrArg₂ _ (Flag.ext hbits hexpr) hfs
  · rintro rfl
    rfl

/-! ## Entries in another order -/

/-- The same tables with their entries in another order. -/
def Rearranged : List Mappings → List Mappings → Prop :=
  List.Forall₂ fun t t' => t.entries.Perm t'.entries

theorem Rearranged.symm (h : Rearranged tables tables') : Rearranged tables' tables :=
  List.Forall₂.flip (h.imp fun _ _ hperm => hperm.symm)

theorem rearranged_refl (tables : List Mappings) : Rearranged tables tables :=
  List.forall₂_same.2 fun _ _ => .refl _

theorem Names.of_perm (h : t.entries.Perm t'.entries) {entry : Mapping}
    (hnames : Names mask p t entry) : Names mask p t' entry := by
  obtain ⟨key, hget, hp⟩ := hnames
  exact ⟨key, Table.mem_entries_iff.1 (h.subset (Table.mem_entries_iff.2 hget)), hp⟩

/-- The most specific table is the same in any order. -/
theorem MostSpecific.rearranged (h : Rearranged tables tables') {entry : Mapping}
    (hentry : MostSpecific mask p tables entry) : MostSpecific mask p tables' entry := by
  induction h with
  | nil => exact hentry
  | cons hperm _ ih =>
    cases hentry with
    | here hnames => exact .here (hnames.of_perm hperm)
    | later hnone hrest => exact .later (fun _ h => hnone _ (h.of_perm hperm.symm)) (ih hrest)

/-- The flags of a table before they are sorted. -/
def unsortedFlags (mask : UInt64) (t : Mappings) : List Flag :=
  (t.entries.filterMap fun (value, entry) =>
    value.bits?.map fun bits => ⟨bits &&& mask, entry.expr⟩).filter (·.bits ≠ 0)

theorem tableFlags_eq (mask : UInt64) (t : Mappings) :
    tableFlags mask t = (unsortedFlags mask t).mergeSort fun a b => a.bits ≤ b.bits := rfl

theorem pairwise_tableFlags (mask : UInt64) (t : Mappings) :
    (tableFlags mask t).Pairwise fun f g => f.bits ≤ g.bits := by
  have h := @List.pairwise_mergeSort Flag (fun f g => f.bits ≤ g.bits)
    (fun f g k hfg hgk => by simp only [decide_eq_true_eq] at *; exact UInt64.le_trans hfg hgk)
    (fun f g => by simpa using UInt64.le_total f.bits g.bits) (unsortedFlags mask t)
  exact h.imp of_decide_eq_true

theorem sameBits_tableFlags (mask : UInt64) (h : t.entries.Perm t'.entries) :
    SameBits (tableFlags mask t) (tableFlags mask t') := by
  refine sameBits_iff.2 (List.Perm.eq_of_pairwise (fun _ _ _ _ => UInt64.le_antisymm)
    (List.pairwise_map.2 (pairwise_tableFlags mask t))
    (List.pairwise_map.2 (pairwise_tableFlags mask t')) (List.Perm.map _ ?_))
  have hunsorted : (unsortedFlags mask t).Perm (unsortedFlags mask t') :=
    (h.filterMap _).filter _
  exact (List.mergeSort_perm _ _).trans (hunsorted.trans (List.mergeSort_perm _ _).symm)

/-- The patterns of the flags do not depend on the order of entries. -/
theorem Rearranged.sameBits_flagsOf (mask : UInt64) (h : Rearranged tables tables') :
    SameBits (flagsOf mask tables) (flagsOf mask tables') := by
  have hflags : SameBits (tables.flatMap (tableFlags mask)) (tables'.flatMap (tableFlags mask)) :=
    List.rel_flatMap h fun _ _ => sameBits_tableFlags mask
  have hsort (flags : List Flag) :
      (flags.mergeSort fun a b => bitCount b.bits ≤ bitCount a.bits).map (·.bits) =
        (flags.map (·.bits)).mergeSort fun a b => bitCount b ≤ bitCount a :=
    List.map_mergeSort fun _ _ _ _ => rfl
  rw [sameBits_iff, flagsOf, flagsOf, hsort, hsort, sameBits_iff.1 hflags.distinctFlags]

/-! ## The entry that comes first -/

/-- Sorting by patterns keeps which flag of a pattern comes first. -/
theorem find?_tableFlags (mask : UInt64) (t : Mappings) (p : UInt64) :
    (tableFlags mask t).find? (·.bits == p) = (unsortedFlags mask t).find? (·.bits == p) := by
  have hsorted : ((unsortedFlags mask t).filter (·.bits == p)).Pairwise
      fun f g => decide (f.bits ≤ g.bits) := by
    refine List.pairwise_of_forall_mem_list fun f hf g hg => ?_
    have hf := (List.mem_filter.1 hf).2
    have hg := (List.mem_filter.1 hg).2
    simp_all
  have hsub := List.sublist_mergeSort
    (fun (f g k : Flag) hfg hgk => by
      simp only [decide_eq_true_eq] at *; exact UInt64.le_trans hfg hgk)
    (fun f g => by simpa using UInt64.le_total f.bits g.bits) hsorted List.filter_sublist
  have heq := (hsub.filter (·.bits == p)).eq_of_length
    (by rw [List.filter_filter]; simpa using ((List.mergeSort_perm _ _).filter _).length_eq.symm)
  rw [List.filter_filter] at heq
  rw [← List.head?_filter, ← List.head?_filter, tableFlags_eq, ← heq]
  simp

theorem exists_perm_cons {key : Value} {entry : Mapping} (h : t.get? key = some entry) :
    ∃ t' : Mappings, t.entries.Perm t'.entries ∧ ∃ rest, t'.entries = (key, entry) :: rest := by
  obtain ⟨before, after, hentries⟩ := List.append_of_mem (Table.mem_entries_iff.2 h)
  have hperm : t.entries.Perm ((key, entry) :: (before ++ after)) := by
    rw [hentries]
    exact List.perm_middle
  exact ⟨⟨_, (hperm.map _).nodup_iff.1 t.distinct⟩, hperm, _, rfl⟩

/-- Each entry of the most specific table with a pattern names the flag in some order. -/
theorem MostSpecific.exists_rearranged (hp : p ≠ 0) {entry : Mapping}
    (h : MostSpecific mask p tables entry) :
    ∃ tables', Rearranged tables tables' ∧ ⟨p, entry.expr⟩ ∈ flagsOf mask tables' := by
  simp only [mem_flagsOf_iff]
  induction h with
  | @here t ts entry hnames =>
    obtain ⟨key, hget, hpattern⟩ := hnames
    obtain ⟨t', hperm, rest, hentries⟩ := exists_perm_cons hget
    obtain ⟨bits, hbits, rfl⟩ := Option.map_eq_some_iff.1 hpattern
    -- only the table that decides is changed: its entry goes to the front
    refine ⟨t' :: ts, .cons hperm (rearranged_refl ts), ?_⟩
    rw [List.findSome?_cons, find?_tableFlags, unsortedFlags, hentries]
    simp [hbits, hp]
  | @later t ts entry hnone _ ih =>
    obtain ⟨ts', hts, hfind⟩ := ih
    refine ⟨t :: ts', .cons (.refl _) hts, ?_⟩
    have hmissing : (tableFlags mask t).find? (·.bits == p) = none := by
      refine List.find?_eq_none.2 fun f hf hbits => ?_
      obtain ⟨entry', h'⟩ := (exists_mem_tableFlags hp).1 ⟨f, hf, eq_of_beq hbits⟩
      exact hnone entry' h'
    rw [List.findSome?_cons, hmissing]
    exact hfind

/-! ## Combinations -/

namespace Rearranged

variable (h : Rearranged tables tables')

include h

theorem sameBits_greedy (mask target : UInt64) :
    SameBits (greedy mask tables target).flags (greedy mask tables' target).flags :=
  ((h.sameBits_flagsOf mask).cover target).1

theorem residual_greedy (mask target : UInt64) :
    (greedy mask tables target).residual target = (greedy mask tables' target).residual target := by
  rw [Cover.residual, Cover.residual, greedy, greedy, ((h.sameBits_flagsOf mask).cover target).2]

theorem prefersComplement_iff :
    PrefersComplement mask tables target ↔ PrefersComplement mask tables' target := by
  have hflags := h.sameBits_greedy mask (opposite mask target)
  rw [ConstRestore.prefersComplement_iff, ConstRestore.prefersComplement_iff,
    h.residual_greedy, h.residual_greedy, hflags.length_eq, (h.sameBits_greedy mask target).length_eq,
    ← List.length_pos_iff, ← List.length_pos_iff, hflags.length_eq]

/-- The order of entries does not decide which patterns are taken. -/
theorem sameBits_chosen (mask target : UInt64) :
    SameBits (chosen mask tables target) (chosen mask tables' target) := by
  rw [chosen, chosen, if_congr h.prefersComplement_iff rfl rfl]
  split_ifs
  · exact .nil
  · exact h.sameBits_greedy mask _
  · exact h.sameBits_greedy mask _

/-- A combination is the same in another order if each of its flags is. -/
theorem decompose_eq_iff {narrow : DataType} (hm : narrow.mask? = some mask) {value : Value}
    (hv : value.pattern? mask = some target) :
    decompose tables value narrow = decompose tables' value narrow ↔
      chosen mask tables target = chosen mask tables' target := by
  rw [decompose_eq hm hv, decompose_eq hm hv, chosen, chosen,
    if_congr h.prefersComplement_iff rfl rfl, if_congr h.prefersComplement_iff rfl rfl,
    h.residual_greedy]
  split_ifs
  · exact iff_of_true rfl rfl
  · rw [← Cover.flags_eq_iff (h.sameBits_greedy mask _)]
    exact (Option.map_injective fun _ _ he => (Expr.unary.inj he).2).eq_iff
  · rw [← Cover.flags_eq_iff (h.sameBits_greedy mask _)]
    simp
  · rw [← Cover.flags_eq_iff (h.sameBits_greedy mask _)]
    exact (Option.map_injective fun _ _ he => (Expr.binary.inj he).2.1).eq_iff

theorem chosen_eq
    (hnamed : ∀ f ∈ chosen mask tables target, ∀ entry, MostSpecific mask f.bits tables entry →
      entry.expr = f.expr) :
    chosen mask tables target = chosen mask tables' target := by
  have hzip := List.forall₂_iff_zip.1 (h.sameBits_chosen mask target)
  rw [← List.forall₂_eq_eq_eq, List.forall₂_iff_zip]
  refine ⟨hzip.1, fun {f f'} hff' => ?_⟩
  have ⟨hf, hf'⟩ := List.of_mem_zip hff'
  have hbits := hzip.2 hff'
  obtain ⟨-, entry, hentry, hexpr⟩ := mem_flagsOf (mem_flagsOf_of_mem_chosen hf')
  rw [← hbits] at hentry
  exact Flag.ext hbits ((hnamed f hf entry (hentry.rearranged h.symm)).symm.trans hexpr)

/-- A combination is the same in any order if none of its flags has a second constant. -/
theorem decompose_eq {narrow : DataType} {value : Value}
    (hnamed : ∀ mask target, narrow.mask? = some mask → value.pattern? mask = some target →
      ∀ f ∈ chosen mask tables target, ∀ entry, MostSpecific mask f.bits tables entry →
        entry.expr = f.expr) :
    decompose tables value narrow = decompose tables' value narrow := by
  cases hm : narrow.mask? with
  | none => rw [decompose, decompose, hm]; rfl
  | some mask =>
    cases hv : value.bits? with
    | none => rw [decompose, decompose, hm, hv]; rfl
    | some bits =>
      have hv : value.pattern? mask = some (bits &&& mask) := by rw [Value.pattern?, hv]; rfl
      exact (h.decompose_eq_iff hm hv).2 (h.chosen_eq (hnamed mask _ hm hv))

end Rearranged

/-- **When the order of entries does not matter.**  A value is put together in the
    same way for all orders exactly if every entry that the most specific table has
    for the pattern of a flag taken names the same constant. -/
theorem decompose_rearranged_iff (tables : List Mappings) (value : Value) (narrow : DataType) :
    (∀ tables', Rearranged tables tables' →
        decompose tables' value narrow = decompose tables value narrow) ↔
      ∀ mask target, narrow.mask? = some mask → value.pattern? mask = some target →
        ∀ f ∈ chosen mask tables target, ∀ entry, MostSpecific mask f.bits tables entry →
          entry.expr = f.expr := by
  constructor
  · intro hsame mask target hm hv f hf entry hentry
    have hne := (mem_flagsOf (mem_flagsOf_of_mem_chosen hf)).1
    -- where this entry comes first, it names the flag, which is still the one taken
    obtain ⟨tables', h, hfirst⟩ := hentry.exists_rearranged hne
    have hchosen := (h.decompose_eq_iff hm hv).1 (hsame tables' h).symm
    have hf' : f ∈ flagsOf mask tables' := mem_flagsOf_of_mem_chosen (hchosen ▸ hf)
    exact congrArg Flag.expr (List.inj_on_of_nodup_map (nodup_flagsOf mask tables') hfirst hf' rfl)
  · intro hnamed tables' h
    exact (h.decompose_eq hnamed).symm

/-! ## Types that hold the values -/

theorem Value.eq_of_bits {v v' : Value} {n : Nat} (htype : v.dataType = v'.dataType)
    (hn : v.dataType.width? = some n) (hbits : v.bits? = v'.bits?) : v = v' := by
  have hint : v.dataType.isIntegral := by rw [DataType.isIntegral, hn]; rfl
  have hint' : v'.dataType.isIntegral := htype ▸ hint
  obtain ⟨i, hi⟩ := exists_toInt64 hint
  obtain ⟨i', hi'⟩ := exists_toInt64 hint'
  obtain ⟨bits, hb⟩ := exists_bits hi
  have hn64 := width?_le hn
  have hcast : ofInt64 i v.dataType = ofInt64 i' v.dataType := by
    refine ofInt64_congr hn fun j hj => ?_
    have h := bit_of_bits hn hi hb (j := j) (by omega)
    rw [bit_of_bits (htype ▸ hn) hi' (hbits ▸ hb) (by omega)] at h
    simpa [hj] using h.symm
  have hself : v.cast v.dataType = v'.cast v.dataType := by
    rw [cast_eq_ofInt64 (isPrimitive_of_isIntegral hint) hint,
      cast_eq_ofInt64 (isPrimitive_of_isIntegral hint') hint, asLong_of_toInt64 hi,
      asLong_of_toInt64 hi', hcast]
  simpa [cast, htype] using hself

theorem Value.pattern?_eq_bits {v : Value} {narrow : DataType} {n m : Nat}
    (hn : v.dataType.width? = some n) (hm : narrow.width? = some m) (hmask : narrow.mask? = some mask)
    (hnm : n ≤ m) : v.pattern? mask = v.bits? := by
  obtain ⟨i, hi⟩ := exists_toInt64 (show v.dataType.isIntegral by rw [DataType.isIntegral, hn]; rfl)
  obtain ⟨bits, hb⟩ := exists_bits hi
  rw [pattern?, hb, Option.map_some, Option.some.injEq]
  refine ext_bit fun j hj => ?_
  rw [bit_and, bit_mask hm hmask hj, bit_of_bits hn hi hb hj]
  by_cases hjn : j < n
  · simp [hjn, show j < m by omega]
  · simp [hjn]

theorem MostSpecific.eq_of_names {entry entry' : Mapping} (h : MostSpecific mask p tables entry)
    (h' : MostSpecific mask p tables entry')
    (hnames : ∀ t ∈ tables, ∀ entry entry', Names mask p t entry → Names mask p t entry' →
      entry = entry') : entry = entry' := by
  induction h with
  | here hfirst =>
    cases h' with
    | here hfirst' => exact hnames _ List.mem_cons_self _ _ hfirst hfirst'
    | later hnone _ => exact absurd hfirst (hnone _)
  | later hnone _ ih =>
    cases h' with
    | here hfirst' => exact absurd hfirst' (hnone _)
    | later _ hrest' => exact ih hrest' fun t ht => hnames t (List.mem_cons_of_mem _ ht)

/-- **No order matters in a type that holds the values.**  Values of a type that is not
    wider differ in their patterns. -/
theorem Rearranged.decompose_of_width (h : Rearranged tables tables') {type narrow : DataType}
    (hkeys : ∀ t ∈ tables, ∀ key entry, t.get? key = some entry → key.dataType = type) {n m : Nat}
    (hn : type.width? = some n) (hm : narrow.width? = some m) (hnm : n ≤ m) (value : Value) :
    decompose tables value narrow = decompose tables' value narrow := by
  refine h.decompose_eq fun mask target hmask _ f hf entry hentry => ?_
  obtain ⟨-, entry', hentry', hexpr⟩ := mem_flagsOf (mem_flagsOf_of_mem_chosen hf)
  rw [← hexpr, hentry.eq_of_names hentry']
  rintro t ht a b ⟨key, ha, hp⟩ ⟨key', hb, hp'⟩
  have hk := hkeys t ht key a ha
  have hk' := hkeys t ht key' b hb
  rw [Value.pattern?_eq_bits (hk.symm ▸ hn) hm hmask hnm] at hp
  rw [Value.pattern?_eq_bits (hk'.symm ▸ hn) hm hmask hnm] at hp'
  obtain rfl := Value.eq_of_bits (hk.trans hk'.symm) (hk.symm ▸ hn) (hp.trans hp'.symm)
  exact Option.some.inj (ha.symm.trans hb)

/-! ## A pattern of two values -/

/-- A table of `int` flags, whose first two values have the pattern 1 in a byte. -/
def collidingTable (first second : Value × String) : Mappings :=
  (((∅ : Mappings).set first.1 ⟨false, flagField first.2⟩).set second.1
    ⟨false, flagField second.2⟩).set (.int 2) ⟨false, flagField "C"⟩

/-- The byte 3 becomes `p.G.A | p.G.C` or `p.G.B | p.G.C`. -/
theorem decompose_depends_on_order :
    Rearranged [collidingTable (.int 1025, "A") (.int 46081, "B")]
        [collidingTable (.int 46081, "B") (.int 1025, "A")] ∧
      decompose [collidingTable (.int 1025, "A") (.int 46081, "B")] (.int 3) .byte =
        some (.binary .or (flagField "A") (flagField "C")) ∧
      decompose [collidingTable (.int 46081, "B") (.int 1025, "A")] (.int 3) .byte =
        some (.binary .or (flagField "B") (flagField "C")) ∧
      flagField "A" ≠ flagField "B" := by
  refine ⟨.cons ?_ .nil, by cbv, by cbv, by decide⟩
  exact List.Perm.swap ..

end ConstRestore
