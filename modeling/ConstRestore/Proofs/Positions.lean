/-
  Where instructions are after a restoration.

  What stands for the instruction at an index begins at its `Rewrite.image`.
  Labels stay and move to their images (`Subject.labelPositions_rewritten`), so
  branches and handlers go to the same places, and as no label is inside of what
  a rewrite claims, the handlers around it are those of the original
  (`Subject.handlersAt_rewritten`).
-/
import ConstRestore.Proofs.Activation
import ConstRestore.Proofs.Rewriting
import ConstRestore.Proofs.Worklist

namespace ConstRestore

/-! ## Images -/

namespace Rewrite

variable {ws : List Rewrite} {code : List Instr} {i : Instr} {j k : Nat}

/-- The index at which what stands for the instruction at an index begins. -/
def image (ws : List Rewrite) (code : List Instr) (j : Nat) : Nat :=
  ((code.zipIdx.take j).flatMap fun c => instead ws c.2 c.1).length

theorem image_succ (h : code[j]? = some i) :
    image ws code (j + 1) = image ws code j + (instead ws j i).length := by
  have hlast : code.zipIdx[j]? = some (i, j) := by simp [List.getElem?_zipIdx, h]
  simp [image, List.take_add_one, hlast]

theorem image_mono (h : j ≤ k) : image ws code j ≤ image ws code k := by
  obtain ⟨part, hpart⟩ := List.take_prefix_take_left (l := code.zipIdx) h
  simp only [image, ← hpart, List.flatMap_append, List.length_append]
  exact Nat.le_add_right _ _

theorem image_length : image ws code code.length = (applyAll ws code).length := by
  rw [image, List.take_of_length_le (List.length_zipIdx).le]
  rfl

theorem instead_prefix (h : code[j]? = some i) :
    instead ws j i <+: (applyAll ws code).drop (image ws code j) := by
  obtain ⟨hlt, rfl⟩ := List.getElem?_eq_some_iff.1 h
  have hdrop : code.zipIdx.drop j = (code[j], j) :: code.zipIdx.drop (j + 1) := by
    rw [List.drop_eq_getElem_cons (by simpa using hlt)]
    simp
  have hsplit : applyAll ws code =
      (code.zipIdx.take j ++ code.zipIdx.drop j).flatMap fun c => instead ws c.2 c.1 := by
    rw [List.take_append_drop]
    rfl
  rw [hsplit, List.flatMap_append, image, List.drop_left, hdrop]
  exact List.prefix_append _ _

theorem getElem?_applyAll (h : code[j]? = some i) (hk : k < (instead ws j i).length) :
    (applyAll ws code)[image ws code j + k]? = (instead ws j i)[k]? := by
  obtain ⟨rest, hrest⟩ := instead_prefix h
  rw [← List.getElem?_drop, ← hrest, List.getElem?_append_left hk]

/-- Every instruction of the new code stands for one of the old code. -/
theorem exists_image {p n : Nat} (h : p < image ws code n) :
    ∃ j < n, image ws code j ≤ p ∧ p < image ws code (j + 1) := by
  induction n with
  | zero => exact absurd h (Nat.not_lt_zero p)
  | succ n ih =>
    by_cases hp : p < image ws code n
    · obtain ⟨j, hj, hp⟩ := ih hp
      exact ⟨j, hj.trans (Nat.lt_succ_self n), hp⟩
    · exact ⟨n, Nat.lt_succ_self n, Nat.not_lt.1 hp, h⟩

end Rewrite

/-! ## What stands for an instruction -/

namespace Subject

variable {s : Subject} {a : Solution} {w : Rewrite} {i : Instr} {j : Nat}

/-- Labels and line numbers stay. -/
theorem instead_isPseudo (hi : s.method.code[j]? = some i) (h : i.isPseudo) :
    Rewrite.instead (s.rewrites a) j i = [i] := by
  refine Rewrite.instead_self fun w hw hclaim => ?_
  have hsound := sound_of_mem_rewrites hw
  rcases hclaim with rfl | hremoves
  · obtain ⟨i', hi', hliteral⟩ := hsound.isLiteral
    obtain rfl := Option.some.inj (hi.symm.trans hi')
    cases i <;> first | cases hliteral | cases h
  · obtain ⟨check, pop, hguarded, hj⟩ := Rewrite.removes_iff.1 hremoves
    have hguards := hsound.guards check pop hguarded
    rcases hj with rfl | rfl
    · obtain ⟨i', hi', hcheck⟩ := hguards.isCheck
      obtain rfl := Option.some.inj (hi.symm.trans hi')
      cases i <;> first | cases hcheck | cases h
    · obtain rfl := Option.some.inj (hi.symm.trans hguards.isPop)
      cases h

/-- Nothing stands for a null check that goes. -/
theorem instead_removed (hw : w ∈ s.rewrites a) (h : w.removes j) (i : Instr) :
    Rewrite.instead (s.rewrites a) j i = [] := by
  obtain ⟨check, pop, hguarded, hj⟩ := Rewrite.removes_iff.1 h
  have hguards := (sound_of_mem_rewrites hw).guards check pop hguarded
  have hliteral : ¬IsLiteralAt s.method.code j := by
    rcases hj with rfl | rfl
    · exact hguards.not_literal.1
    · exact hguards.not_literal.2
  have hfind : (s.rewrites a).find? (·.index == j) = none := by
    refine List.find?_eq_none.2 fun w' hw' hindex => hliteral ?_
    rw [← eq_of_beq hindex]
    exact (sound_of_mem_rewrites hw').isLiteral
  rw [Rewrite.instead, hfind]
  exact if_pos (List.any_eq_true.2 ⟨w, hw, h⟩)

/-- Only a label stands for itself as a label. -/
theorem eq_label_of_mem_instead {l : Label} (h : .label l ∈ Rewrite.instead (s.rewrites a) j i) :
    i = .label l := by
  unfold Rewrite.instead at h
  split at h
  case h_1 w hfind =>
    have hw := sound_of_mem_rewrites (List.mem_of_find?_eq_some hfind)
    exact absurd (hw.straight _ h).1 nofun
  case h_2 =>
    split_ifs at h
    · cases h
    · exact (List.mem_singleton.1 h).symm

end Subject

/-! ## Labels -/

namespace Method

variable {m : Method} {l : Label} {j : Nat}

theorem labelPositions_append (m : Method) (code : List Instr) (i : Instr) :
    { m with code := code ++ [i] }.labelPositions =
      match i with
      | .label l => { m with code := code }.labelPositions.set l code.length
      | _ => { m with code := code }.labelPositions := by
  have hlast : (code ++ [i]).zipIdx = code.zipIdx ++ [(i, code.length)] := by
    rw [List.zipIdx_append, List.zipIdx_singleton, Nat.zero_add]
  cases i <;> exact (congrArg (List.foldl _ (∅ : Table Label Nat)) hlast).trans List.foldl_append

/-- A label is at the last place where it stands. -/
theorem labelPositions_eq_some : m.labelPositions.get? l = some j ↔
    m.code[j]? = some (.label l) ∧ ∀ k, m.code[k]? = some (.label l) → k ≤ j := by
  suffices h : ∀ code : List Instr, { m with code := code }.labelPositions.get? l = some j ↔
      code[j]? = some (.label l) ∧ ∀ k, code[k]? = some (.label l) → k ≤ j from h m.code
  intro code
  -- from the right, where a label takes the place of an earlier one
  induction code using List.reverseRecOn with
  | nil => exact ⟨nofun, fun h => nomatch h.1⟩
  | append_singleton code i ih =>
    rw [labelPositions_append]
    by_cases hi : i = .label l
    · subst hi
      have hlast : (code ++ [.label l])[code.length]? = some (.label l) := by simp
      simp only [Table.get?_set, if_pos, Option.some.injEq]
      constructor
      · rintro rfl
        refine ⟨hlast, fun k hk => ?_⟩
        have hlt := (List.getElem?_eq_some_iff.1 hk).1
        rw [List.length_append] at hlt
        exact Nat.le_of_lt_succ hlt
      · rintro ⟨hj, hmax⟩
        have hlt := (List.getElem?_eq_some_iff.1 hj).1
        rw [List.length_append] at hlt
        exact Nat.le_antisymm (hmax _ hlast) (Nat.le_of_lt_succ hlt)
    · have hold (k : Nat) : (code ++ [i])[k]? = some (.label l) ↔ code[k]? = some (.label l) := by
        rcases lt_trichotomy k code.length with hk | rfl | hk
        · rw [List.getElem?_append_left hk]
        · simp [hi]
        · simp [hk, hk.le]
      have hget : (match i with
          | .label l => { m with code := code }.labelPositions.set l code.length
          | _ => { m with code := code }.labelPositions).get? l =
            { m with code := code }.labelPositions.get? l := by
        split
        · exact (Table.get?_set ..).trans (if_neg fun heq => hi (congrArg _ heq.symm))
        · rfl
      simp only [hget, hold, ih]

end Method

namespace Subject

variable {s : Subject} {a : Solution} {l : Label} {i : Instr} {j p : Nat}

/-- The method with its rewrites made. -/
def rewritten (s : Subject) (a : Solution) : Method :=
  { s.method with code := Rewrite.applyAll (s.rewrites a) s.method.code }

/-- Where what stands for an instruction of the method begins. -/
def image (s : Subject) (a : Solution) (j : Nat) : Nat :=
  Rewrite.image (s.rewrites a) s.method.code j

theorem image_succ_isPseudo (hi : s.method.code[j]? = some i) (h : i.isPseudo) :
    s.image a (j + 1) = s.image a j + 1 := by
  rw [image, Rewrite.image_succ hi, instead_isPseudo hi h]
  rfl

theorem label_rewritten : (s.rewritten a).code[p]? = some (.label l) ↔
    ∃ j, s.method.code[j]? = some (.label l) ∧ s.image a j = p := by
  constructor
  · intro hp
    have hlt : p < s.image a s.method.code.length := by
      rw [image, Rewrite.image_length]
      exact (List.getElem?_eq_some_iff.1 hp).1
    obtain ⟨j, hj, hle, hlt⟩ := Rewrite.exists_image hlt
    have hi := List.getElem?_eq_getElem hj
    obtain ⟨k, rfl⟩ := Nat.exists_eq_add_of_le hle
    rw [Rewrite.image_succ hi] at hlt
    have hk := Rewrite.getElem?_applyAll hi (Nat.lt_of_add_lt_add_left hlt)
    have hlabel := eq_label_of_mem_instead (List.mem_of_getElem? (hk.symm.trans hp))
    rw [hlabel] at hi hlt
    rw [instead_isPseudo hi rfl, List.length_singleton] at hlt
    exact ⟨j, hi, by unfold image; omega⟩
  · rintro ⟨j, hj, rfl⟩
    have hinstead := instead_isPseudo (a := a) hj rfl
    exact (Rewrite.getElem?_applyAll (k := 0) hj (by rw [hinstead]; exact Nat.zero_lt_one)).trans
      (by rw [hinstead]; rfl)

/-- **Labels move to their images.** -/
theorem labelPositions_rewritten (l : Label) :
    (s.rewritten a).labelPositions.get? l = (s.method.labelPositions.get? l).map (s.image a) := by
  refine Option.ext fun p => ?_
  rw [Method.labelPositions_eq_some, Option.map_eq_some_iff]
  simp only [Method.labelPositions_eq_some]
  constructor
  · rintro ⟨hp, hmax⟩
    obtain ⟨j, hj, rfl⟩ := label_rewritten.1 hp
    refine ⟨j, ⟨hj, fun k hk => ?_⟩, rfl⟩
    by_contra hlt
    have hle := hmax _ (label_rewritten.2 ⟨k, hk, rfl⟩)
    have hlater : s.image a (j + 1) ≤ s.image a k := Rewrite.image_mono (Nat.lt_of_not_le hlt)
    rw [image_succ_isPseudo hj rfl] at hlater
    omega
  · rintro ⟨j, ⟨hj, hmax⟩, rfl⟩
    refine ⟨label_rewritten.2 ⟨j, hj, rfl⟩, fun q hq => ?_⟩
    obtain ⟨k, hk, rfl⟩ := label_rewritten.1 hq
    exact Rewrite.image_mono (hmax k hk)

/-! ## Handlers -/

/-- Where no label is between two instructions, the handlers for what takes their place are
    those for the first one. -/
theorem handlersAt_rewritten {first last : Nat} (hle : first ≤ last)
    (hlabels : ∀ l j, s.method.code[j]? = some (.label l) → j < first ∨ last < j)
    (hfirst : s.image a first ≤ p) (hlast : p < s.image a (last + 1)) :
    (s.rewritten a).handlersAt p = s.method.handlersAt first := by
  -- the image of a label is on the side of the new code on which the label is of the old
  have hposition (l : Label) (q : Nat) (hq : s.method.labelPositions.get? l = some q) :
      (s.image a q ≤ p ↔ q ≤ first) ∧ (p < s.image a q ↔ first < q) := by
    rcases hlabels l q (Method.label_of_labelPositions hq) with hlt | hlt
    · have hmono : s.image a q ≤ s.image a first := Rewrite.image_mono hlt.le
      omega
    · have hmono : s.image a (last + 1) ≤ s.image a q := Rewrite.image_mono hlt
      omega
  refine List.filter_congr fun b _ => ?_
  simp only [Method.protects, labelPositions_rewritten]
  congr 1
  · cases hq : s.method.labelPositions.get? b.start with
    | none => rfl
    | some q => simp [(hposition _ q hq).1]
  · cases hq : s.method.labelPositions.get? b.stop with
    | none => rfl
    | some q => simp [(hposition _ q hq).2]

end Subject

end ConstRestore
