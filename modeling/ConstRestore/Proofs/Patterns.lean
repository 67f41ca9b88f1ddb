/-
  The bit patterns that scope tables have names for.

  A table names a pattern if it maps a value with this pattern inside a mask;
  of several tables the most specific one counts (`MostSpecific`).

  * `mem_flagsOf`: a flag is named by the most specific table with its pattern;
  * `exists_mem_flagsOf`: every nonzero pattern of the tables is one of a flag;
  * `nodup_flagsOf`, `pairwise_flagsOf`: no pattern occurs twice, and none comes
    after one with fewer bits.
-/
import Mathlib
import ConstRestore.Code.Flags

namespace ConstRestore

variable {mask p : UInt64}

/-- The bits of an integral value inside a mask. -/
def Value.pattern? (v : Value) (mask : UInt64) : Option UInt64 := v.bits?.map (· &&& mask)

/-- A table maps a value with the pattern `p` to `entry`. -/
def Names (mask p : UInt64) (t : Mappings) (entry : Mapping) : Prop :=
  ∃ key, t.get? key = some entry ∧ key.pattern? mask = some p

/-- The first of some tables that names the pattern `p` has `entry` for it. -/
inductive MostSpecific (mask p : UInt64) : List Mappings → Mapping → Prop
  | here {t : Mappings} {ts : List Mappings} {entry : Mapping} (h : Names mask p t entry) :
    MostSpecific mask p (t :: ts) entry
  | later {t : Mappings} {ts : List Mappings} {entry : Mapping}
    (hnone : ∀ entry', ¬Names mask p t entry') (h : MostSpecific mask p ts entry) :
    MostSpecific mask p (t :: ts) entry

/-- The nonzero patterns of the values that tables map. -/
def patterns (mask : UInt64) (tables : List Mappings) : Set UInt64 :=
  {p | p ≠ 0 ∧ ∃ t ∈ tables, ∃ entry, Names mask p t entry}

theorem MostSpecific.exists_names {tables : List Mappings} {entry : Mapping}
    (h : MostSpecific mask p tables entry) : ∃ t ∈ tables, Names mask p t entry := by
  induction h with
  | here h => exact ⟨_, List.mem_cons_self, h⟩
  | later _ _ ih =>
    obtain ⟨t, ht, h⟩ := ih
    exact ⟨t, List.mem_cons_of_mem _ ht, h⟩

theorem bits_of_find? {flags : List Flag} {f : Flag}
    (h : flags.find? (·.bits == p) = some f) : f.bits = p := by
  simpa using List.find?_some h

/-! ## Flags of one table -/

theorem mem_tableFlags {t : Mappings} {f : Flag} :
    f ∈ tableFlags mask t ↔ f.bits ≠ 0 ∧ ∃ entry, Names mask f.bits t entry ∧ entry.expr = f.expr := by
  rw [tableFlags, List.mem_mergeSort, List.mem_filter, and_comm, decide_eq_true_eq]
  refine and_congr_right fun _ => ?_
  simp only [List.mem_filterMap, Option.map_eq_some_iff, Prod.exists]
  constructor
  · rintro ⟨key, entry, hentry, bits, hbits, rfl⟩
    exact ⟨entry, ⟨key, Table.mem_entries_iff.1 hentry, by simp [Value.pattern?, hbits]⟩, rfl⟩
  · rintro ⟨entry, ⟨key, hentry, hp⟩, hexpr⟩
    obtain ⟨bits, hbits, hp⟩ := Option.map_eq_some_iff.1 hp
    exact ⟨key, entry, Table.mem_entries_iff.2 hentry, bits, hbits, by rw [hp, hexpr]⟩

/-- A flag of a table with a given nonzero pattern. -/
theorem exists_mem_tableFlags {t : Mappings} (hp : p ≠ 0) :
    (∃ f ∈ tableFlags mask t, f.bits = p) ↔ ∃ entry, Names mask p t entry := by
  constructor
  · rintro ⟨f, hf, rfl⟩
    obtain ⟨-, entry, h, -⟩ := mem_tableFlags.1 hf
    exact ⟨entry, h⟩
  · rintro ⟨entry, h⟩
    exact ⟨⟨p, entry.expr⟩, mem_tableFlags.2 ⟨hp, entry, h, rfl⟩, rfl⟩

/-! ## The first flag of every pattern -/

theorem distinctFlags_append_singleton (flags : List Flag) (f : Flag) :
    distinctFlags (flags ++ [f]) =
      if (distinctFlags flags).any (·.bits == f.bits) then distinctFlags flags
      else distinctFlags flags ++ [f] := by
  rw [distinctFlags, List.foldl_append]
  rfl

/-- Dropping repeated patterns does not change which flag of a pattern comes first. -/
theorem find?_distinctFlags (flags : List Flag) (p : UInt64) :
    (distinctFlags flags).find? (·.bits == p) = flags.find? (·.bits == p) := by
  induction flags using List.reverseRecOn with
  | nil => rfl
  | append_singleton flags f ih =>
    rw [distinctFlags_append_singleton, List.find?_append, ← ih]
    split_ifs with h
    · by_cases hf : f.bits = p
      · subst hf
        obtain ⟨g, hg⟩ := Option.isSome_iff_exists.1 (List.find?_isSome.2 (List.any_eq_true.1 h))
        rw [hg, Option.some_or]
      · simp [hf]
    · rw [List.find?_append]

theorem nodup_distinctFlags (flags : List Flag) : ((distinctFlags flags).map (·.bits)).Nodup := by
  induction flags using List.reverseRecOn with
  | nil => exact List.nodup_nil
  | append_singleton flags f ih =>
    rw [distinctFlags_append_singleton]
    split_ifs with h
    · exact ih
    · rw [List.map_append, List.nodup_append_comm]
      refine List.nodup_cons.2 ⟨fun hmem => h ?_, ih⟩
      obtain ⟨g, hg, hbits⟩ := List.mem_map.1 hmem
      exact List.any_eq_true.2 ⟨g, hg, beq_iff_eq.2 hbits⟩

/-- In a list without repeated patterns the first flag of a pattern is the only one. -/
theorem find?_eq_some_of_nodup {flags : List Flag} (h : (flags.map (·.bits)).Nodup) {f : Flag}
    (hf : f ∈ flags) : flags.find? (·.bits == f.bits) = some f := by
  obtain ⟨g, hg⟩ := Option.isSome_iff_exists.1
    (List.find?_isSome (p := (·.bits == f.bits)).2 ⟨f, hf, BEq.rfl⟩)
  rw [hg, List.inj_on_of_nodup_map h (List.mem_of_find?_eq_some hg) hf (bits_of_find? hg)]

theorem mem_distinctFlags_iff {flags : List Flag} {f : Flag} :
    f ∈ distinctFlags flags ↔ flags.find? (·.bits == f.bits) = some f := by
  rw [← find?_distinctFlags]
  exact ⟨find?_eq_some_of_nodup (nodup_distinctFlags flags), List.mem_of_find?_eq_some⟩

/-! ## Flags of all tables -/

/-- The first of all flags with a pattern is the first of the most specific table that
    has the pattern. -/
theorem mem_flagsOf_iff {tables : List Mappings} {f : Flag} :
    f ∈ flagsOf mask tables ↔
      tables.findSome? (fun t => (tableFlags mask t).find? (·.bits == f.bits)) = some f := by
  rw [flagsOf, List.mem_mergeSort, mem_distinctFlags_iff, List.find?_flatMap]

theorem mostSpecific_of_findSome? {tables : List Mappings} {f : Flag} (hp : p ≠ 0)
    (h : tables.findSome? (fun t => (tableFlags mask t).find? (·.bits == p)) = some f) :
    ∃ entry, MostSpecific mask p tables entry ∧ entry.expr = f.expr := by
  induction tables with
  | nil => cases h
  | cons t ts ih =>
    rw [List.findSome?_cons] at h
    split at h
    · next g hg =>
      obtain rfl := Option.some.inj h
      obtain ⟨-, entry, hentry, hexpr⟩ := mem_tableFlags.1 (List.mem_of_find?_eq_some hg)
      rw [bits_of_find? hg] at hentry
      exact ⟨entry, .here hentry, hexpr⟩
    · next hg =>
      obtain ⟨entry, hentry, hexpr⟩ := ih h
      refine ⟨entry, .later (fun entry' h' => ?_) hentry, hexpr⟩
      obtain ⟨g, hmem, hbits⟩ := (exists_mem_tableFlags hp).2 ⟨entry', h'⟩
      exact List.find?_eq_none.1 hg g hmem (beq_iff_eq.2 hbits)

/-- **A flag is named by the most specific table with its pattern.** -/
theorem mem_flagsOf {tables : List Mappings} {f : Flag} (h : f ∈ flagsOf mask tables) :
    f.bits ≠ 0 ∧ ∃ entry, MostSpecific mask f.bits tables entry ∧ entry.expr = f.expr := by
  have hfind := mem_flagsOf_iff.1 h
  obtain ⟨t, -, hf⟩ := List.exists_of_findSome?_eq_some hfind
  have hne := (mem_tableFlags.1 (List.mem_of_find?_eq_some hf)).1
  exact ⟨hne, mostSpecific_of_findSome? hne hfind⟩

theorem mem_patterns_of_mem_flagsOf {tables : List Mappings} {f : Flag}
    (h : f ∈ flagsOf mask tables) : f.bits ∈ patterns mask tables := by
  obtain ⟨hne, entry, hentry, -⟩ := mem_flagsOf h
  obtain ⟨t, ht, h⟩ := hentry.exists_names
  exact ⟨hne, t, ht, entry, h⟩

theorem exists_mem_flagsOf {tables : List Mappings} (h : p ∈ patterns mask tables) :
    ∃ f ∈ flagsOf mask tables, f.bits = p := by
  obtain ⟨hne, t, ht, hnames⟩ := h
  obtain ⟨g, hg, hbits⟩ := (exists_mem_tableFlags hne).2 hnames
  have hsome : (tables.findSome? fun t => (tableFlags mask t).find? (·.bits == p)).isSome := by
    rw [List.findSome?_isSome_iff]
    exact ⟨t, ht, List.find?_isSome.2 ⟨g, hg, beq_iff_eq.2 hbits⟩⟩
  obtain ⟨f, hf⟩ := Option.isSome_iff_exists.1 hsome
  obtain ⟨t', -, hf'⟩ := List.exists_of_findSome?_eq_some hf
  obtain rfl := bits_of_find? hf'
  exact ⟨f, mem_flagsOf_iff.2 hf, rfl⟩

theorem nodup_flagsOf (mask : UInt64) (tables : List Mappings) :
    ((flagsOf mask tables).map (·.bits)).Nodup :=
  ((List.mergeSort_perm _ _).map _).nodup_iff.2 (nodup_distinctFlags _)

theorem pairwise_flagsOf (mask : UInt64) (tables : List Mappings) :
    (flagsOf mask tables).Pairwise fun f g => bitCount g.bits ≤ bitCount f.bits := by
  have h := @List.pairwise_mergeSort Flag (fun f g => bitCount g.bits ≤ bitCount f.bits)
    (fun f g k hfg hgk => by simp only [decide_eq_true_eq] at *; omega)
    (fun f g => by simp only [Bool.or_eq_true, decide_eq_true_eq]; omega)
    (distinctFlags (tables.flatMap (tableFlags mask)))
  exact h.imp of_decide_eq_true

end ConstRestore
