/-
  The edits of a plan.

  What a plan puts in place of an instruction is what the verdict on some
  literal asks for (`plan_get?`).  A verdict edits its literal and the null
  check before it, which is none, so a literal is replaced by its own verdict
  only (`plan_literal`).
-/
import ConstRestore.Restore.Restoration
import ConstRestore.Proofs.Result

namespace ConstRestore

/-! ## Edits -/

namespace Edits

variable {e e' : Edits} {index j : Nat} {sequence instead : List Instr}

@[simp] theorem get?_empty (j : Nat) : empty.replacements.get? j = none := rfl

theorem at_of_get?_none {i : Instr} (h : e.replacements.get? j = none) : e.at_ j i = [i] := by
  simp [at_, h]

theorem get?_replace (h : e.replace index sequence = .ok e') :
    e'.replacements.get? j = some instead ↔
      e.replacements.get? j = some instead ∨ (j, instead) = (index, sequence) := by
  unfold replace at h
  split_ifs at h with hc
  obtain rfl := Except.ok.inj h
  have hnone : e.replacements.get? index = none := by
    simpa [contains, Table.contains] using hc
  simp only [Table.get?_set, Prod.mk.injEq]
  by_cases hj : j = index
  · subst hj
    simp [hnone, eq_comm]
  · simp [hj]

theorem get?_replaceAll {replacements : List (Nat × List Instr)}
    (h : e.replaceAll replacements = .ok e') :
    e'.replacements.get? j = some instead ↔
      e.replacements.get? j = some instead ∨ (j, instead) ∈ replacements := by
  induction replacements generalizing e with
  | nil =>
    obtain rfl := Except.ok.inj h
    simp
  | cons r replacements ih =>
    obtain ⟨e₁, h₁, h⟩ := bind_eq_ok.1 ((List.foldlM_cons ..).symm.trans h)
    rw [ih h, get?_replace h₁, List.mem_cons, or_assoc]

end Edits

/-! ## Null checks -/

/-- A null check of the instruction at `index`: the call at `check` and the `pop` of its
    result, with nothing but line numbers from there to the instruction. -/
structure Guards (code : List Instr) (index check pop : Nat) : Prop where
  check_lt : check < pop
  pop_lt : pop < index
  isCheck : ∃ i, code[check]? = some i ∧ i.isNullCheck
  isPop : code[pop]? = some (.simple .pop)
  lines : ∀ j i, check < j → j ≠ pop → j < index → code[j]? = some i → i.isLine

/-- Line numbers stand between a null check and its instruction. -/
theorem Guards.exists_line {code : List Instr} {index check pop j : Nat}
    (h : Guards code index check pop) (hindex : index < code.length) (hcheck : check < j)
    (hpop : j ≠ pop) (hj : j < index) : ∃ i, code[j]? = some i ∧ i.isLine := by
  have hi := List.getElem?_eq_getElem (hj.trans hindex)
  exact ⟨_, hi, h.lines j _ hcheck hpop hj hi⟩

theorem guards_of_nullCheckBefore? {code : List Instr} {index check pop : Nat}
    (h : nullCheckBefore? code index = some (check, pop)) : Guards code index check pop := by
  unfold nullCheckBefore? at h
  split at h
  case h_2 => cases h
  case h_1 pop' i check' rest hlist =>
    split_ifs at h with hcheck
    simp only [Option.some.injEq, Prod.mk.injEq] at h
    obtain ⟨rfl, rfl⟩ := h
    -- the instructions before `index`, the last one first, with only lines before, between and after
    obtain ⟨l₁, l₂, hl, hlines₁, -, hlist⟩ := List.filter_eq_cons_iff.1 hlist
    obtain ⟨l₃, l₄, rfl, hlines₃, -, -⟩ := List.filter_eq_cons_iff.1 hlist
    have hmem (c : Instr × Nat) : c ∈ l₁ ++ (.simple .pop, pop') :: (l₃ ++ (i, check') :: l₄) ↔
        c.2 < index ∧ code[c.2]? = some c.1 := by
      rw [← hl, List.mem_reverse, List.mem_zipIdx_iff_getElem?, List.getElem?_take]
      split_ifs with hc <;> simp [hc]
    have hdescending : (l₁ ++ (.simple .pop, pop') :: (l₃ ++ (i, check') :: l₄)).Pairwise
        fun b c : Instr × Nat => c.2 < b.2 := by
      rw [← hl, List.pairwise_reverse]
      refine List.Pairwise.of_map (·.2) (fun b c h => h) ?_
      rw [List.zipIdx_map_snd]
      exact List.pairwise_lt_range'
    obtain ⟨-, hdescending, -⟩ := List.pairwise_append.1 hdescending
    obtain ⟨hpop, hdescending⟩ := List.pairwise_cons.1 hdescending
    obtain ⟨-, hdescending, -⟩ := List.pairwise_append.1 hdescending
    have hrest := (List.pairwise_cons.1 hdescending).1
    have hpopAt := (hmem (.simple .pop, pop')).1 (by simp)
    refine ⟨hpop (i, check') (by simp), hpopAt.1, ⟨i, ((hmem (i, check')).1 (by simp)).2, hcheck⟩,
      hpopAt.2, ?_⟩
    intro j c hcheckj hpopj hj hc
    have hc := (hmem (c, j)).2 ⟨hj, hc⟩
    simp only [List.mem_append, List.mem_cons, Prod.mk.injEq] at hc
    rcases hc with hc | ⟨-, rfl⟩ | hc | ⟨-, rfl⟩ | hc
    · simpa using hlines₁ _ hc
    · exact absurd rfl hpopj
    · simpa using hlines₃ _ hc
    · exact absurd hcheckj (lt_irrefl _)
    · exact absurd (hrest (c, j) hc) (Nat.lt_asymm hcheckj)

theorem Instr.literal?_of_isNullCheck {i : Instr} (h : i.isNullCheck) : i.literal? = none := by
  cases i <;> first | rfl | cases h

namespace Subject

variable {s : Subject} {a : Solution}

theorem nullCheckBefore?_of_nullCheck? {index : Nat} {e : Expr} {guarded : Nat × Nat}
    (h : s.nullCheck? a index e = some guarded) :
    nullCheckBefore? s.method.code index = some guarded := by
  unfold nullCheck? at h
  split at h
  case h_2 => cases h
  split_ifs at h
  obtain ⟨⟨check, pop⟩, hcheck, h⟩ := Option.bind_eq_some_iff.1 h
  obtain ⟨frame, -, h⟩ := Option.bind_eq_some_iff.1 h
  obtain ⟨receiver, -, h⟩ := Option.bind_eq_some_iff.1 h
  split at h
  case h_2 => cases h
  split_ifs at h
  rw [hcheck, h]

/-- The object of a null check is on the stack where the check is. -/
theorem object_of_nullCheck? {index check pop : Nat} {e : Expr}
    (h : s.nullCheck? a index e = some (check, pop)) :
    ∃ f object rest, a.frame? check = some f ∧ f.stack = object :: rest := by
  unfold nullCheck? at h
  split at h
  case h_2 => cases h
  split_ifs at h
  obtain ⟨⟨check', pop'⟩, -, h⟩ := Option.bind_eq_some_iff.1 h
  obtain ⟨f, hf, h⟩ := Option.bind_eq_some_iff.1 h
  obtain ⟨object, hobject, h⟩ := Option.bind_eq_some_iff.1 h
  split at h
  case h_2 => cases h
  split_ifs at h
  obtain ⟨rfl, rfl⟩ := Prod.mk.inj (Option.some.inj h)
  obtain ⟨rest, hstack⟩ := List.head?_eq_some_iff.1 hobject
  exact ⟨f, object, rest, hf, hstack⟩

/-- A substitution is the code of the stand-in, for the object on the stack where it removes a null
    check, and the conversion to the type of the literal. -/
theorem substitution_parts {index : Nat} {literal : DataType} {w : StandIn} {sub : Substitution}
    (h : s.substitution a index literal w = .ok sub) :
    (∀ guarded, sub.nullCheck = some guarded → s.nullCheck? a index w.expr = some guarded) ∧
    ∃ code last, codeFor s.registry (s.codeContext sub.nullCheck.isSome) w.expr w.type = .ok code ∧
      convert w.type literal = .ok last ∧ sub.code = code ++ last := by
  unfold substitution at h
  cases hc : s.checkedCode? a index w with
  | none =>
    simp only [hc] at h
    obtain ⟨code, hcode, h⟩ := bind_eq_ok.1 h
    obtain ⟨last, hlast, h⟩ := bind_eq_ok.1 h
    obtain rfl := Except.ok.inj h
    exact ⟨nofun, code, last, hcode, hlast, rfl⟩
  | some checked =>
    obtain ⟨guarded, code⟩ := checked
    simp only [hc] at h
    obtain ⟨last, hlast, rfl⟩ := map_eq_ok.1 h
    obtain ⟨guarded', hguarded, hc⟩ := Option.bind_eq_some_iff.1 hc
    obtain ⟨code', hcode, hc⟩ := Option.bind_eq_some_iff.1 hc
    obtain ⟨rfl, rfl⟩ := Prod.mk.inj (Option.some.inj hc)
    refine ⟨?_, code', last, toOption_eq_some.1 hcode, hlast, rfl⟩
    rintro guarded ⟨⟩
    exact hguarded

theorem nullCheckBefore?_of_substitution {index : Nat} {literal : DataType} {w : StandIn}
    {sub : Substitution} {guarded : Nat × Nat} (h : s.substitution a index literal w = .ok sub)
    (hcheck : sub.nullCheck = some guarded) :
    nullCheckBefore? s.method.code index = some guarded :=
  nullCheckBefore?_of_nullCheck? ((substitution_parts h).1 _ hcheck)

theorem groupVerdict_eq_replaced {index : Nat} {value : Value} {f : Facts} {key : GroupKey}
    {w : StandIn} {sub : Substitution} (h : s.groupVerdict a index value f key = .replaced w sub) :
    s.standIn? key value f = some w ∧ s.substitution a index value.dataType w = .ok sub := by
  unfold groupVerdict at h
  split at h
  case h_1 w' hw =>
    split at h <;> cases h
    exact ⟨hw, ‹_›⟩
  case h_2 => split at h <;> cases h

/-- A literal is replaced by what stands in for it in the group that is chosen. -/
theorem verdict_eq_replaced {index : Nat} {value : Value} {f : Facts} {w : StandIn}
    {sub : Substitution} (h : s.verdict a index value f = .replaced w sub) :
    ∃ key, (s.groupChoice f).key? s.store value.dataType s.config.defaults = some key ∧
      s.standIn? key value f = some w ∧ s.substitution a index value.dataType w = .ok sub := by
  simp only [verdict] at h
  split at h
  case h_1 key hkey => exact ⟨key, hkey, groupVerdict_eq_replaced h⟩
  case h_2 => split at h <;> cases h

/-- A verdict edits no literal but its own. -/
theorem replaced_of_mem_replacements {index j : Nat} {value : Value} {f : Facts}
    {instead : List Instr} {i : Instr}
    (h : (j, instead) ∈ (s.verdict a index value f).replacements index)
    (hi : s.method.code[j]? = some i) (hliteral : i.literal?.isSome) :
    j = index ∧ ∃ w sub, s.verdict a index value f = .replaced w sub ∧ instead = sub.code := by
  cases hv : s.verdict a index value f with
  | replaced w sub =>
    obtain ⟨key, -, -, hsub⟩ := verdict_eq_replaced hv
    simp only [hv, Verdict.replacements, Substitution.replacements, List.mem_append,
      List.mem_flatMap, Option.mem_toList] at h
    rcases h with ⟨⟨check, pop⟩, hguarded, h⟩ | h
    · have hguards := guards_of_nullCheckBefore? (nullCheckBefore?_of_substitution hsub hguarded)
      obtain ⟨c, hc, hcheck⟩ := hguards.isCheck
      simp only [List.mem_cons, Prod.mk.injEq, List.not_mem_nil, or_false] at h
      rcases h with ⟨rfl, -⟩ | ⟨rfl, -⟩
      · obtain rfl := Option.some.inj (hc.symm.trans hi)
        simp [Instr.literal?_of_isNullCheck hcheck] at hliteral
      · obtain rfl := Option.some.inj (hguards.isPop.symm.trans hi)
        cases hliteral
    · obtain ⟨rfl, rfl⟩ := Prod.mk.inj (List.mem_singleton.1 h)
      exact ⟨rfl, w, sub, rfl, rfl⟩
  | _ => simp [hv, Verdict.replacements] at h

/-! ## Plans -/

/-- A verdict on a literal asks for a sequence in place of an instruction. -/
def Asks (s : Subject) (a : Solution) (j : Nat) (instead : List Instr) : Prop :=
  ∃ index i value root facts, s.method.code[index]? = some i ∧
    s.literalAt? a index i = some (value, root, facts) ∧
    (j, instead) ∈ (s.verdict a index value facts).replacements index

theorem literalAt?_eq_some {index : Nat} {i : Instr} {value : Value} {root : Source}
    {facts : Facts} (h : s.literalAt? a index i = some (value, root, facts)) :
    i.literal? = some value ∧ a.facts.root? (.instruction index) = some root ∧
      a.facts.facts? (.instruction index) = some facts := by
  obtain ⟨value', hvalue, h⟩ := Option.bind_eq_some_iff.1 h
  obtain ⟨facts', hfacts, h⟩ := Option.bind_eq_some_iff.1 h
  obtain ⟨root', hroot, h⟩ := Option.bind_eq_some_iff.1 h
  unfold Solution.facts? at hfacts
  split_ifs at hfacts h
  obtain ⟨rfl, rfl, rfl⟩ := by simpa using h
  exact ⟨hvalue, hroot, hfacts⟩

theorem visit_get? {p p' : Pass} {index j : Nat} {i : Instr} {instead : List Instr}
    (h : s.visit a p index i = .ok p') :
    p'.edits.replacements.get? j = some instead ↔ p.edits.replacements.get? j = some instead ∨
      ∃ value root facts, s.literalAt? a index i = some (value, root, facts) ∧
        (j, instead) ∈ (s.verdict a index value facts).replacements index := by
  unfold visit at h
  split at h
  case h_1 hnone =>
    obtain rfl := Except.ok.inj h
    simp [hnone]
  case h_2 value root facts hliteral =>
    obtain ⟨edits, hedits, h⟩ := bind_eq_ok.1 h
    obtain rfl := Except.ok.inj h
    simp [hliteral, Edits.get?_replaceAll hedits]

theorem foldlM_visit_get? {code : List (Instr × Nat)} {p p' : Pass} {j : Nat}
    {instead : List Instr}
    (h : code.foldlM (fun p (i, index) => s.visit a p index i) p = .ok p') :
    p'.edits.replacements.get? j = some instead ↔ p.edits.replacements.get? j = some instead ∨
      ∃ i index, (i, index) ∈ code ∧
        ∃ value root facts, s.literalAt? a index i = some (value, root, facts) ∧
          (j, instead) ∈ (s.verdict a index value facts).replacements index := by
  induction code generalizing p with
  | nil =>
    obtain rfl := Except.ok.inj h
    simp
  | cons c code ih =>
    obtain ⟨i, index⟩ := c
    obtain ⟨p₁, h₁, h⟩ := bind_eq_ok.1 ((List.foldlM_cons ..).symm.trans h)
    rw [ih h, visit_get? h₁, or_assoc]
    simp only [List.mem_cons, Prod.mk.injEq, or_and_right, exists_or, and_assoc,
      exists_eq_left, exists_and_left]

/-- A plan edits what the verdicts on the literals of the method ask for. -/
theorem plan_get? {p : Pass} {j : Nat} {instead : List Instr} (h : s.plan a = .ok p) :
    p.edits.replacements.get? j = some instead ↔ s.Asks a j instead := by
  rw [foldlM_visit_get? h]
  simp only [Pass.start, Edits.get?_empty, reduceCtorEq, false_or, Asks,
    List.mem_zipIdx_iff_getElem?]
  constructor
  · rintro ⟨i, index, hi, value, root, facts, hliteral, hmem⟩
    exact ⟨index, i, value, root, facts, hi, hliteral, hmem⟩
  · rintro ⟨index, i, value, root, facts, hi, hliteral, hmem⟩
    exact ⟨i, index, hi, value, root, facts, hliteral, hmem⟩

/-- What a plan puts in place of a literal is what stands in for it in the group
    that is chosen for its class. -/
theorem plan_literal {p : Pass} {j : Nat} {i : Instr} {instead : List Instr}
    (h : s.plan a = .ok p) (hi : s.method.code[j]? = some i) (hliteral : i.literal?.isSome)
    (hinstead : p.edits.replacements.get? j = some instead) :
    ∃ value root facts w sub, s.literalAt? a j i = some (value, root, facts) ∧
      s.verdict a j value facts = .replaced w sub ∧ instead = sub.code := by
  obtain ⟨index, i', value, root, facts, hi', hat, hmem⟩ := (plan_get? h).1 hinstead
  obtain ⟨rfl, w, sub, hverdict, rfl⟩ := replaced_of_mem_replacements hmem hi hliteral
  obtain rfl := Option.some.inj (hi.symm.trans hi')
  exact ⟨value, root, facts, w, sub, hat, hverdict, rfl⟩

end Subject

end ConstRestore