/-
  What a restoration leaves alone.

  The literals that a plan replaces, with what takes their place, are a list of
  `Rewrite`s.  Each claims its literal and the null check before it.  What belongs
  to one literal stands before all that belongs to a later one
  (`BelongsTo.lt_of_literal`), so no instruction is claimed twice and every plan
  can be made.  `restoreMethod_rewrites` says that a method becomes itself with
  its rewrites made and nothing else changed.
-/
import ConstRestore.Proofs.Plan
import ConstRestore.Proofs.Straight

namespace ConstRestore

/-! ## Literals and their null checks -/

def IsLiteralAt (code : List Instr) (index : Nat) : Prop :=
  ∃ i, code[index]? = some i ∧ i.literal?.isSome

/-- The instruction at `j` is the one at `index` or a part of its null check. -/
def BelongsTo (code : List Instr) (index j : Nat) : Prop :=
  j = index ∨ ∃ check pop, Guards code index check pop ∧ (j = check ∨ j = pop)

section Literals

variable {code : List Instr} {index check pop j k : Nat}

theorem Instr.isLine_of_literal? {i : Instr} (h : i.literal?.isSome) : i.isLine = false := by
  cases i with
  | line number start => cases h
  | _ => rfl

theorem Guards.not_literal (h : Guards code index check pop) :
    ¬IsLiteralAt code check ∧ ¬IsLiteralAt code pop := by
  refine ⟨?_, ?_⟩
  · rintro ⟨i, hi, hliteral⟩
    obtain ⟨c, hc, hcheck⟩ := h.isCheck
    obtain rfl := Option.some.inj (hc.symm.trans hi)
    simp [Instr.literal?_of_isNullCheck hcheck] at hliteral
  · rintro ⟨i, hi, hliteral⟩
    obtain rfl := Option.some.inj (h.isPop.symm.trans hi)
    cases hliteral

/-- A literal before another one stands before the null check of that one. -/
theorem Guards.lt_check (h : Guards code index check pop) (hk : IsLiteralAt code k)
    (hlt : k < index) : k < check := by
  by_contra hcheck
  have hne : check ≠ k := by
    rintro rfl
    exact h.not_literal.1 hk
  have hne' : k ≠ pop := by
    rintro rfl
    exact h.not_literal.2 hk
  obtain ⟨i, hi, hliteral⟩ := hk
  have hline := h.lines k i (by omega) hne' hlt hi
  simp [Instr.isLine_of_literal? hliteral] at hline

theorem BelongsTo.le (h : BelongsTo code index j) : j ≤ index := by
  rcases h with rfl | ⟨check, pop, hguards, hj⟩
  · exact le_rfl
  · have := hguards.check_lt
    have := hguards.pop_lt
    omega

theorem BelongsTo.lt_of_literal (h : BelongsTo code index j) (hk : IsLiteralAt code k)
    (hlt : k < index) : k < j := by
  rcases h with rfl | ⟨check, pop, hguards, hj⟩
  · exact hlt
  · have := hguards.lt_check hk hlt
    have := hguards.check_lt
    omega

/-- An instruction belongs to one literal only. -/
theorem BelongsTo.unique {index' : Nat} (h : BelongsTo code index j) (h' : BelongsTo code index' j)
    (hi : IsLiteralAt code index) (hi' : IsLiteralAt code index') : index = index' := by
  rcases lt_trichotomy index index' with hlt | heq | hlt
  · exact absurd (h'.lt_of_literal hi hlt) (Nat.not_lt.2 h.le)
  · exact heq
  · exact absurd (h.lt_of_literal hi' hlt) (Nat.not_lt.2 h'.le)

end Literals

/-! ## Rewrites -/

/-- A literal that is replaced, and what takes its place. -/
structure Rewrite where
  index : Nat
  sub : Substitution

namespace Rewrite

/-- Whether the instruction at an index belongs to the null check that goes. -/
def removes (w : Rewrite) (j : Nat) : Bool :=
  w.sub.nullCheck.any fun (check, pop) => j == check || j == pop

/-- The edits of a rewrite. -/
def edits (w : Rewrite) : List (Nat × List Instr) := w.sub.replacements w.index

/-- What stands for the instruction `i` at an index: the code of its rewrite,
    nothing if it belongs to a null check that goes, and otherwise itself. -/
def instead (ws : List Rewrite) (j : Nat) (i : Instr) : List Instr :=
  match ws.find? (·.index == j) with
  | some w => w.sub.code
  | none => if ws.any (·.removes j) then [] else [i]

/-- The code with all rewrites made. -/
def applyAll (ws : List Rewrite) (code : List Instr) : List Instr :=
  code.zipIdx.flatMap fun (i, j) => instead ws j i

/-- What a rewrite has to be: a literal that the analysis reached is replaced by
    straight-line code, and what goes with it is its null check. -/
structure Sound (code : List Instr) (a : Solution) (w : Rewrite) : Prop where
  isLiteral : IsLiteralAt code w.index
  reachable : a.isReachable w.index
  nonempty : w.sub.code ≠ []
  straight : Straight w.sub.code
  guards : ∀ check pop, w.sub.nullCheck = some (check, pop) → Guards code w.index check pop

variable {code : List Instr} {a : Solution} {w w' : Rewrite} {ws : List Rewrite} {j : Nat}

theorem removes_iff : w.removes j ↔
    ∃ check pop, w.sub.nullCheck = some (check, pop) ∧ (j = check ∨ j = pop) := by
  simp [removes, Option.any_eq_true]

theorem mem_edits {instead : List Instr} : (j, instead) ∈ w.edits ↔
    j = w.index ∧ instead = w.sub.code ∨ w.removes j ∧ instead = [] := by
  obtain ⟨index, nullCheck, sequence⟩ := w
  cases nullCheck with
  | none => simp [edits, removes, Substitution.replacements]
  | some guarded =>
    simp only [edits, removes, Substitution.replacements, Option.toList, List.flatMap_cons,
      List.flatMap_nil, List.append_nil, List.cons_append, List.nil_append, List.mem_cons,
      Prod.mk.injEq, List.not_mem_nil, or_false, Option.any_some, Bool.or_eq_true, beq_iff_eq]
    tauto

theorem Sound.belongsTo (h : w.Sound code a) (hj : j = w.index ∨ w.removes j) :
    BelongsTo code w.index j := by
  refine hj.imp_right fun hj => ?_
  obtain ⟨check, pop, hguarded, hj⟩ := removes_iff.1 hj
  exact ⟨check, pop, h.guards check pop hguarded, hj⟩

theorem Sound.belongsTo_of_mem_keys (h : w.Sound code a) (hj : j ∈ w.edits.map (·.1)) :
    BelongsTo code w.index j := by
  obtain ⟨⟨j, instead⟩, hmem, rfl⟩ := List.mem_map.1 hj
  exact h.belongsTo ((mem_edits.1 hmem).imp And.left And.left)

/-- The edits of one rewrite are at different instructions. -/
theorem Sound.nodup_keys (h : w.Sound code a) : (w.edits.map (·.1)).Nodup := by
  obtain ⟨index, nullCheck, sequence⟩ := w
  cases nullCheck with
  | none => simp [edits, Substitution.replacements]
  | some guarded =>
    have hguards := h.guards guarded.1 guarded.2 rfl
    have hcheck := hguards.check_lt
    have hpop := hguards.pop_lt
    dsimp only at hpop
    simp only [edits, Substitution.replacements, Option.toList, List.flatMap_cons,
      List.flatMap_nil, List.append_nil, List.cons_append, List.nil_append, List.map_cons,
      List.map_nil, List.nodup_cons, List.mem_cons, List.not_mem_nil, or_false, not_or,
      not_false_eq_true, List.nodup_nil, and_true]
    omega

/-- **No instruction is edited twice.** -/
theorem nodup_edits (hws : ∀ w ∈ ws, w.Sound code a) (hsorted : ws.Pairwise (·.index < ·.index)) :
    ((ws.flatMap edits).map (·.1)).Nodup := by
  rw [List.map_flatMap, List.nodup_flatMap]
  refine ⟨fun w hw => (hws w hw).nodup_keys, ?_⟩
  refine hsorted.imp_of_mem fun {w w'} hw hw' hlt j hj hj' => ?_
  have h := hws w hw
  have h' := hws w' hw'
  exact hlt.ne ((h.belongsTo_of_mem_keys hj).unique (h'.belongsTo_of_mem_keys hj')
    h.isLiteral h'.isLiteral)

/-- What the edits put in place of an instruction. -/
theorem instead_eq {e : Edits}
    (he : Edits.empty.replaceAll (ws.flatMap edits) = .ok e) (j : Nat) (i : Instr) :
    e.at_ j i = instead ws j i := by
  have hget (instead : List Instr) :
      e.replacements.get? j = some instead ↔ ∃ w ∈ ws, (j, instead) ∈ w.edits := by
    rw [Edits.get?_replaceAll he, Edits.get?_empty, List.mem_flatMap]
    simp
  unfold instead
  split
  · rename_i w hfind
    have hindex : w.index = j := by simpa using List.find?_some hfind
    have hmem : (j, w.sub.code) ∈ w.edits := mem_edits.2 (.inl ⟨hindex.symm, rfl⟩)
    rw [Edits.at_, (hget _).2 ⟨w, List.mem_of_find?_eq_some hfind, hmem⟩, Option.getD_some]
  · rename_i hfind
    have hindex (w : Rewrite) (hw : w ∈ ws) : j ≠ w.index := by
      rintro rfl
      simpa using List.find?_eq_none.1 hfind w hw
    split_ifs with hremoved
    · obtain ⟨w, hw, hremoves⟩ := List.any_eq_true.1 hremoved
      rw [Edits.at_, (hget []).2 ⟨w, hw, mem_edits.2 (.inr ⟨hremoves, rfl⟩)⟩, Option.getD_some]
    · refine Edits.at_of_get?_none (Option.eq_none_iff_forall_ne_some.2 fun instead h => ?_)
      obtain ⟨w, hw, hmem⟩ := (hget instead).1 h
      rcases mem_edits.1 hmem with ⟨heq, -⟩ | ⟨hremoves, -⟩
      · exact hindex w hw heq
      · exact hremoved (List.any_eq_true.2 ⟨w, hw, hremoves⟩)

/-- What no rewrite claims stays. -/
theorem instead_self {i : Instr} (h : ∀ w ∈ ws, ¬(j = w.index ∨ w.removes j)) :
    instead ws j i = [i] := by
  have hfind : ws.find? (·.index == j) = none := by
    refine List.find?_eq_none.2 fun w hw heq => h w hw (.inl ?_)
    exact (eq_of_beq heq).symm
  have hany : ws.any (·.removes j) = false :=
    List.any_eq_false.2 fun w hw hremoves => h w hw (.inr hremoves)
  simp [instead, hfind, hany]

end Rewrite

/-! ## Edits that can be made -/

/-- Replacements of different instructions can all be made. -/
theorem Edits.replaceAll_eq_ok {e : Edits} {replacements : List (Nat × List Instr)}
    (hnew : ∀ p ∈ replacements, e.replacements.get? p.1 = none)
    (hnodup : (replacements.map (·.1)).Nodup) : ∃ e', e.replaceAll replacements = .ok e' := by
  induction replacements generalizing e with
  | nil => exact ⟨e, rfl⟩
  | cons p replacements ih =>
    obtain ⟨hp, hnew⟩ := List.forall_mem_cons.1 hnew
    obtain ⟨hfirst, hnodup⟩ := List.nodup_cons.1 hnodup
    have hreplace : e.replace p.1 p.2 = .ok ⟨e.replacements.set p.1 p.2⟩ := by
      simp [replace, contains, Table.contains, hp]
    have hrest (q : Nat × List Instr) (hq : q ∈ replacements) :
        (e.replacements.set p.1 p.2).get? q.1 = none := by
      rw [Table.get?_set, if_neg, hnew q hq]
      intro heq
      exact hfirst (List.mem_map.2 ⟨q, hq, heq⟩)
    obtain ⟨e', he'⟩ := ih (e := ⟨e.replacements.set p.1 p.2⟩) hrest hnodup
    exact ⟨e', (List.foldlM_cons ..).trans (bind_eq_ok.2 ⟨_, hreplace, he'⟩)⟩

theorem Edits.replaceAll_append (e : Edits) (l l' : List (Nat × List Instr)) :
    e.replaceAll (l ++ l') = e.replaceAll l >>= (·.replaceAll l') := List.foldlM_append

/-! ## Plans -/

/-- What a verdict puts in place of its literal. -/
def Verdict.substitution? : Verdict → Option Substitution
  | replaced _ sub => some sub
  | _ => none

namespace Subject

variable {s : Subject} {a : Solution}

/-- The rewrite of the instruction at an index, if it is a literal that is replaced. -/
def rewriteAt? (s : Subject) (a : Solution) (index : Nat) (i : Instr) : Option Rewrite :=
  (s.literalAt? a index i).bind fun (value, _, facts) =>
    (s.verdict a index value facts).substitution?.map (⟨index, ·⟩)

/-- The rewrites of a method, in the order of its code. -/
def rewrites (s : Subject) (a : Solution) : List Rewrite :=
  s.method.code.zipIdx.filterMap fun (i, index) => s.rewriteAt? a index i

theorem rewriteAt?_of_literalAt? {index : Nat} {i : Instr} {value : Value} {root : Source}
    {facts : Facts} (h : s.literalAt? a index i = some (value, root, facts)) :
    s.rewriteAt? a index i = (s.verdict a index value facts).substitution?.map (⟨index, ·⟩) := by
  rw [rewriteAt?, h, Option.bind_some]

theorem rewriteAt?_eq_some {index : Nat} {i : Instr} {w : Rewrite}
    (h : s.rewriteAt? a index i = some w) : w.index = index ∧ ∃ value root facts standIn,
      s.literalAt? a index i = some (value, root, facts) ∧
      s.verdict a index value facts = .replaced standIn w.sub := by
  obtain ⟨⟨value, root, facts⟩, hliteral, h⟩ := Option.bind_eq_some_iff.1 h
  obtain ⟨sub, hsub, rfl⟩ := Option.map_eq_some_iff.1 h
  cases hverdict : s.verdict a index value facts with
  | replaced standIn sub' =>
    rw [hverdict] at hsub
    obtain rfl := Option.some.inj hsub
    exact ⟨rfl, value, root, facts, standIn, hliteral, hverdict⟩
  | _ =>
    rw [hverdict] at hsub
    cases hsub

theorem mem_rewrites {w : Rewrite} : w ∈ s.rewrites a ↔
    ∃ i, s.method.code[w.index]? = some i ∧ s.rewriteAt? a w.index i = some w := by
  simp only [rewrites, List.mem_filterMap, Prod.exists, List.mem_zipIdx_iff_getElem?]
  constructor
  · rintro ⟨i, index, hi, hw⟩
    obtain ⟨rfl, -⟩ := rewriteAt?_eq_some hw
    exact ⟨i, hi, hw⟩
  · rintro ⟨i, hi, hw⟩
    exact ⟨i, w.index, hi, hw⟩

theorem mem_rewrites_of_rewriteAt? {index : Nat} {i : Instr} {w : Rewrite}
    (hi : s.method.code[index]? = some i) (hw : s.rewriteAt? a index i = some w) :
    w ∈ s.rewrites a ∧ w.index = index := by
  have hindex := (rewriteAt?_eq_some hw).1
  refine ⟨mem_rewrites.2 ⟨i, ?_, ?_⟩, hindex⟩
  · rw [hindex, hi]
  · rw [hindex, hw]

theorem rewriteAt?_of_mem_rewrites {w : Rewrite} {i : Instr} (hw : w ∈ s.rewrites a)
    (hi : s.method.code[w.index]? = some i) : s.rewriteAt? a w.index i = some w := by
  obtain ⟨i', hi', hw⟩ := mem_rewrites.1 hw
  obtain rfl := Option.some.inj (hi.symm.trans hi')
  exact hw

/-- The code of a rewrite stands for its literal. -/
theorem instead_of_rewriteAt? {index : Nat} {i : Instr} {w : Rewrite}
    (hi : s.method.code[index]? = some i) (hw : s.rewriteAt? a index i = some w) :
    Rewrite.instead (s.rewrites a) index i = w.sub.code := by
  obtain ⟨hmem, hindex⟩ := mem_rewrites_of_rewriteAt? hi hw
  unfold Rewrite.instead
  split
  next w' hfind =>
    have hw' := List.mem_of_find?_eq_some hfind
    have hindex' : w'.index = index := by simpa using List.find?_some hfind
    have h := rewriteAt?_of_mem_rewrites hw' (by rw [hindex', hi])
    rw [hindex', hw] at h
    rw [Option.some.inj h]
  next hfind =>
    exact absurd hindex (by simpa using List.find?_eq_none.1 hfind w hmem)

theorem isReachable_of_literalAt? {index : Nat} {i : Instr} {l : Value × Source × Facts}
    (h : s.literalAt? a index i = some l) : a.isReachable index := by
  obtain ⟨value, -, h⟩ := Option.bind_eq_some_iff.1 h
  obtain ⟨facts, hfacts, -⟩ := Option.bind_eq_some_iff.1 h
  unfold Solution.facts? at hfacts
  split_ifs at hfacts with hreachable
  exact hreachable

/-- Every rewrite is one of a literal by straight-line code. -/
theorem sound_of_mem_rewrites {w : Rewrite} (h : w ∈ s.rewrites a) : w.Sound s.method.code a := by
  obtain ⟨i, hi, hw⟩ := mem_rewrites.1 h
  obtain ⟨-, value, root, facts, standIn, hliteral, hverdict⟩ := rewriteAt?_eq_some hw
  obtain ⟨key, -, -, hsub⟩ := verdict_eq_replaced hverdict
  obtain ⟨hne, hstraight⟩ := straight_substitution hsub
  have hvalue := (literalAt?_eq_some hliteral).1
  exact ⟨⟨i, hi, by rw [hvalue, Option.isSome_some]⟩, isReachable_of_literalAt? hliteral, hne,
    hstraight, fun check pop hguarded =>
      guards_of_nullCheckBefore? (nullCheckBefore?_of_substitution hsub hguarded)⟩

theorem pairwise_rewrites (s : Subject) (a : Solution) :
    (s.rewrites a).Pairwise (·.index < ·.index) := by
  refine List.Pairwise.filterMap _ ?_ (R := fun c d : Instr × Nat => c.2 < d.2) ?_
  · rintro ⟨i, index⟩ ⟨i', index'⟩ hlt w hw w' hw'
    rw [(rewriteAt?_eq_some hw).1, (rewriteAt?_eq_some hw').1]
    exact hlt
  · refine List.Pairwise.of_map (·.2) (fun b c h => h) ?_
    rw [List.zipIdx_map_snd]
    exact List.pairwise_lt_range'

/-- Taking up an instruction makes the edits of its rewrite. -/
theorem visit_eq {p : Pass} {index : Nat} {i : Instr} {e : Edits}
    (h : p.edits.replaceAll ((s.rewriteAt? a index i).toList.flatMap Rewrite.edits) = .ok e) :
    ∃ p', s.visit a p index i = .ok p' ∧ p'.edits = e ∧
      p'.stats.replaced = p.stats.replaced + (s.rewriteAt? a index i).toList.length := by
  unfold visit
  cases hliteral : s.literalAt? a index i with
  | none =>
    simp only [rewriteAt?, hliteral, Option.bind_none] at h ⊢
    obtain rfl := Except.ok.inj h
    exact ⟨p, rfl, rfl, rfl⟩
  | some l =>
    obtain ⟨value, root, facts⟩ := l
    rw [rewriteAt?_of_literalAt? hliteral] at h ⊢
    have hedits (v : Verdict) : v.replacements index =
        (v.substitution?.map (Rewrite.mk index)).toList.flatMap Rewrite.edits := by
      cases v with
      | replaced w sub => exact (List.append_nil _).symm
      | _ => rfl
    have hcount (v : Verdict) :
        v.stats.replaced = (v.substitution?.map (Rewrite.mk index)).toList.length := by
      cases v <;> rfl
    refine ⟨⟨e, _, _, _⟩, bind_eq_ok.2 ⟨e, (congrArg _ (hedits _)).trans h, rfl⟩, rfl, ?_⟩
    rw [← hcount]
    rfl

theorem foldlM_visit_eq {code : List (Instr × Nat)} {p : Pass} {e : Edits}
    (h : p.edits.replaceAll ((code.filterMap fun (i, index) => s.rewriteAt? a index i).flatMap
      Rewrite.edits) = .ok e) :
    ∃ p', code.foldlM (fun p (i, index) => s.visit a p index i) p = .ok p' ∧ p'.edits = e ∧
      p'.stats.replaced = p.stats.replaced +
        (code.filterMap fun (i, index) => s.rewriteAt? a index i).length := by
  induction code generalizing p with
  | nil =>
    obtain rfl := Except.ok.inj h
    exact ⟨p, rfl, rfl, rfl⟩
  | cons c code ih =>
    obtain ⟨i, index⟩ := c
    have hcons : ((i, index) :: code).filterMap (fun (i, index) => s.rewriteAt? a index i) =
        (s.rewriteAt? a index i).toList ++ code.filterMap fun (i, index) => s.rewriteAt? a index i := by
      simp only [List.filterMap_cons]
      cases s.rewriteAt? a index i <;> rfl
    rw [hcons, List.flatMap_append, Edits.replaceAll_append] at h
    obtain ⟨e₁, he₁, h⟩ := bind_eq_ok.1 h
    obtain ⟨p₁, hp₁, rfl, hcount₁⟩ := visit_eq he₁
    obtain ⟨p', hp', hedits, hcount⟩ := ih h
    refine ⟨p', (List.foldlM_cons ..).trans (bind_eq_ok.2 ⟨p₁, hp₁, hp'⟩), hedits, ?_⟩
    rw [hcount, hcount₁, hcons, List.length_append]
    omega

/-- **Every plan can be made.** Its edits are those of the rewrites. -/
theorem plan_eq_ok (s : Subject) (a : Solution) : ∃ p, s.plan a = .ok p ∧
    p.edits.apply s.method.code = Rewrite.applyAll (s.rewrites a) s.method.code ∧
    p.stats.replaced = (s.rewrites a).length := by
  have hsound (w : Rewrite) (hw : w ∈ s.rewrites a) := sound_of_mem_rewrites hw
  obtain ⟨e, he⟩ := Edits.replaceAll_eq_ok (e := .empty)
    (fun p _ => Edits.get?_empty p.1) (Rewrite.nodup_edits hsound (pairwise_rewrites s a))
  obtain ⟨p, hp, hedits, hcount⟩ := foldlM_visit_eq (p := .start) he
  refine ⟨p, hp, ?_, by rw [hcount]; exact Nat.zero_add _⟩
  rw [hedits]
  refine List.flatMap_congr fun c _ => ?_
  exact Rewrite.instead_eq he c.2 c.1

/-- What belongs to a literal that is not replaced stays. -/
theorem instead_of_not_replaced {index j : Nat} {i c : Instr} (hi : s.method.code[index]? = some i)
    (hliteral : i.literal?.isSome) (hnone : s.rewriteAt? a index i = none)
    (hj : BelongsTo s.method.code index j) : Rewrite.instead (s.rewrites a) j c = [c] := by
  refine Rewrite.instead_self fun w hw hclaim => ?_
  have hsound := sound_of_mem_rewrites hw
  obtain rfl := hj.unique (hsound.belongsTo hclaim) ⟨i, hi, hliteral⟩ hsound.isLiteral
  obtain ⟨i', hi', hw'⟩ := mem_rewrites.1 hw
  obtain rfl := Option.some.inj (hi.symm.trans hi')
  cases hnone.symm.trans hw'

end Subject

/-! ## Methods -/

theorem Rewrite.applyAll_nil (code : List Instr) : applyAll [] code = code := by
  have hself (c : Instr × Nat) : instead [] c.2 c.1 = [c.1] := rfl
  simp only [applyAll, hself]
  rw [← List.map_eq_flatMap, List.zipIdx_map_fst]

/-- A method that cannot be analysed stays as it is. -/
theorem Subject.restore_of_error {s : Subject} {e : FlowError}
    (h : solve s.registry s.config.stepLimit s.owner s.method = .error e) :
    ∃ out, s.restore = .ok out ∧ out.result = s.method ∧ out.stats.replaced = 0 := by
  unfold restore
  simp only [h]
  split_ifs
  · exact ⟨_, rfl, rfl, rfl⟩
  · exact ⟨_, rfl, rfl, rfl⟩

/-- The rewrites of a method that is analysed are made. -/
theorem Subject.restore_of_ok {s : Subject} {a : Solution}
    (h : solve s.registry s.config.stepLimit s.owner s.method = .ok a) :
    ∃ out, s.restore = .ok out ∧
      out.result = { s.method with code := Rewrite.applyAll (s.rewrites a) s.method.code } ∧
      out.stats.replaced = (s.rewrites a).length := by
  obtain ⟨p, hp, happly, hcount⟩ := s.plan_eq_ok a
  unfold restore
  simp only [h]
  split_ifs with hcode
  · exact ⟨_, bind_eq_ok.2 ⟨p, hp, rfl⟩, by rw [← happly], hcount⟩
  · have hnil : s.method.code = [] := by simpa [Method.hasCode] using hcode
    have hnone : s.rewrites a = [] := by rw [rewrites, hnil]; rfl
    refine ⟨_, rfl, ?_, by rw [hnone]; rfl⟩
    rw [hnone, Rewrite.applyAll_nil]

/-- **A restoration touches nothing but what it rewrites.**  It never fails.  The code becomes
    itself with the rewrites made, of which there are as many as the statistics say: in the order
    of the code, each a literal that the analysis reached, which becomes straight-line code; the
    call and the `pop` of a null check that goes with it are deleted; and all other instructions
    and everything else about the method stay.  Nothing is rewritten where the analysis fails, and
    a literal whose stand-in has no code stays with its null check. -/
theorem restoreMethod_rewrites (r : Registry) (s : Store) (config : Config) (c : ClassFile)
    (m : Method) : ∃ out ws, restoreMethod r s config c m = .ok out ∧
      out.result = { m with code := Rewrite.applyAll ws m.code } ∧
      ws.length = out.stats.replaced ∧ ws.Pairwise (·.index < ·.index) ∧
      (∀ w ∈ ws, ∃ a, solve r config.stepLimit c.name m = .ok a ∧ w.Sound m.code a) ∧
      (∀ e, solve r config.stepLimit c.name m = .error e → out.result = m) ∧
      ∀ a index i value root facts w e, solve r config.stepLimit c.name m = .ok a →
        m.code[index]? = some i →
        Subject.literalAt? ⟨r, s, config, c.name, c.majorVersion, m⟩ a index i =
          some (value, root, facts) →
        Subject.verdict ⟨r, s, config, c.name, c.majorVersion, m⟩ a index value facts =
          .refused w e →
        ∀ j c, BelongsTo m.code index j → Rewrite.instead ws j c = [c] := by
  generalize hs : Subject.mk r s config c.name c.majorVersion m = subject
  have hrestore : restoreMethod r s config c m = subject.restore := by rw [← hs]; rfl
  have hmethod : subject.method = m := by rw [← hs]
  have hsolve : solve r config.stepLimit c.name m = solve subject.registry
      subject.config.stepLimit subject.owner subject.method := by rw [← hs]
  rw [hrestore, hsolve]
  cases h : solve subject.registry subject.config.stepLimit subject.owner subject.method with
  | error e =>
    obtain ⟨out, hout, hresult, hcount⟩ := Subject.restore_of_error h
    refine ⟨out, [], hout, ?_, hcount.symm, .nil, ?_, fun _ _ => hresult.trans hmethod, ?_⟩
    · rw [hresult, hmethod, Rewrite.applyAll_nil]
    · intro w hw
      cases hw
    · intro a index i value root facts w e' ha
      cases ha
  | ok a =>
    obtain ⟨out, hout, hresult, hcount⟩ := Subject.restore_of_ok h
    rw [hmethod] at hresult
    refine ⟨out, subject.rewrites a, hout, hresult, hcount.symm, subject.pairwise_rewrites a, ?_, ?_, ?_⟩
    · intro w hw
      exact ⟨a, rfl, hmethod ▸ Subject.sound_of_mem_rewrites hw⟩
    · intro e he
      cases he
    · rintro a' index i value root facts w e ⟨⟩ hi hliteral hverdict j c' hj
      rw [← hmethod] at hi hj
      refine Subject.instead_of_not_replaced hi ?_ ?_ hj
      · rw [(Subject.literalAt?_eq_some hliteral).1, Option.isSome_some]
      · rw [Subject.rewriteAt?_of_literalAt? hliteral, hverdict]
        rfl

end ConstRestore
