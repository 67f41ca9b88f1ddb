/-
  Texts of expressions and how they are read.

  `Reads.unique`: a phrase stands for one expression.  Its form tells the form of the expression:
  a cast is not taken for parentheses (`Reads.ne_cast`), and of the operators outside of
  parentheses that bind most loosely the last one is the outermost (`Reads.eq_binary`), because
  two operators cannot each stand in an operand of the other (`Reads.not_crossed`).

  `Expr.reads_text`: the text of an expression is a phrase that stands for it.  Every other phrase
  that does has more parentheses (`Reads.sublist`), so the text has none that can be left out.
-/
import ConstRestore.Proofs.Phrases

namespace ConstRestore

namespace Reads

variable {p q : Nat} {s t a b : List Char} {e e' l r : Expr} {op op' : BinaryOp}

/-! ## One reading -/

/-- A phrase fits as the operand of a prefix unless it is one of a binary operator. -/
theorem prefix_or_binary (h : Reads p s e) : Reads prefixPrecedence s e ∨
    ∃ op l r s' t, e = .binary op l r ∧ s = s' ++ (BinaryOp.mark op ++ t) ∧
      Reads op.precedence s' l ∧ Reads (op.precedence + 1) t r := by
  cases h with
  | field _ hf => exact .inl (.field (Nat.le_succ prefixPrecedence) hf)
  | parens h => exact .inl (.parens h)
  | unary _ h => exact .inl (.unary (Nat.le_refl _) h)
  | cast _ h => exact .inl (.cast (Nat.le_refl _) h)
  | binary _ hl hr => exact .inr ⟨_, _, _, _, _, rfl, rfl, hl, hr⟩

/-- The parenthesis after the type of a cast would close one that the phrase has not opened. -/
theorem ne_cast (h : Reads p s e) (ty : DataType) (t : List Char) :
    '(' :: (s ++ [')']) ≠ ty.castWord ++ ' ' :: t := by
  intro heq
  have hsplit : s ++ [')'] = ty.name.toList ++ [')'] ++ ' ' :: t := (List.cons.inj heq).2
  have hne : ty.name.toList ++ [')'] ≠ s ++ [')'] := by
    intro hs
    rw [← hs] at hsplit
    simp at hsplit
  have hpos : 0 < parenDepth ty.castWord := h.balanced.depth_pos ⟨_, hsplit.symm⟩ hne
  have hzero := ty.balanced_castWord.depth_eq
  omega

theorem eq_field {f : FieldRef} (hf : f.IsSymbol) (h : Reads p f.text.toList e) :
    e = .field f := by
  have hs : Reads prefixPrecedence f.text.toList (.field f) :=
    .field (Nat.le_succ prefixPrecedence) hf
  generalize ht : f.text.toList = t at h
  cases h with
  | field _ hf' => rw [hf.eq_of_text hf' (String.toList_inj.1 ht)]
  | parens | cast => exact absurd ht (hf.ne_cons (by decide) _)
  | @unary _ op => exact absurd ht (hf.ne_cons op.not_isNameChar_sign _)
  | binary _ hl => exact absurd ht (hs.ne_binary hl.balanced.depth_eq)

theorem of_parens (hs : Reads 0 s e') (h : Reads p ('(' :: (s ++ [')'])) e) : Reads 0 s e := by
  have hparens : Reads prefixPrecedence ('(' :: (s ++ [')'])) e' := .parens hs
  generalize ht : '(' :: (s ++ [')']) = t at h
  cases h with
  | field _ hf => exact absurd ht.symm (hf.ne_cons (by decide) _)
  | parens h =>
    obtain ⟨rfl, -⟩ := List.append_inj' (List.cons.inj ht).2 rfl
    exact h
  | @unary _ op => exact absurd (List.cons.inj ht).1.symm op.sign_ne_paren
  | @cast _ ty => exact absurd ht (hs.ne_cast ty _)
  | binary _ hl => exact absurd ht (hparens.ne_binary hl.balanced.depth_eq)

theorem eq_unary {op : UnaryOp} (hs : Reads prefixPrecedence s e') (h : Reads p (op.sign :: s) e) :
    ∃ e₁, e = .unary op e₁ ∧ Reads prefixPrecedence s e₁ := by
  have hsign : Reads prefixPrecedence (op.sign :: s) (.unary op e') := .unary (Nat.le_refl _) hs
  generalize ht : op.sign :: s = t at h
  cases h with
  | field _ hf => exact absurd ht.symm (hf.ne_cons op.not_isNameChar_sign _)
  | parens | cast => exact absurd (List.cons.inj ht).1 op.sign_ne_paren
  | unary _ h =>
    obtain ⟨hop, rfl⟩ := List.cons.inj ht
    exact ⟨_, by rw [UnaryOp.sign_inj hop], h⟩
  | binary _ hl => exact absurd ht (hsign.ne_binary hl.balanced.depth_eq)

theorem eq_cast {ty : DataType} (hs : Reads prefixPrecedence s e')
    (h : Reads p (ty.castWord ++ ' ' :: s) e) :
    ∃ e₁, e = .cast ty e₁ ∧ Reads prefixPrecedence s e₁ := by
  have hcast : Reads prefixPrecedence (ty.castWord ++ ' ' :: s) (.cast ty e') :=
    .cast (Nat.le_refl _) hs
  generalize ht : ty.castWord ++ ' ' :: s = t at h
  cases h with
  | field _ hf => exact absurd ht.symm (hf.ne_cons (by decide) _)
  | parens h => exact absurd ht.symm (h.ne_cast ty s)
  | @unary _ op => exact absurd (List.cons.inj ht).1.symm op.sign_ne_paren
  | cast _ h =>
    obtain ⟨rfl, rfl⟩ := DataType.castWord_inj ht
    exact ⟨_, rfl, h⟩
  | binary _ hl => exact absurd ht (hcast.ne_binary hl.balanced.depth_eq)

/-- An operator does not stand in the left operand of one that stands in its right operand: the
    one would have to bind at least as tightly as the other, and the other more tightly. -/
theorem not_crossed (ha : Reads q a e) (hl : Reads op.precedence (a ++ (op'.mark ++ s)) l)
    (hr : Reads (op'.precedence + 1) (s ++ (op.mark ++ t)) r) : False := by
  have hs : parenDepth s = 0 := by
    have hzero := hl.balanced.depth_eq
    rw [parenDepth_append, parenDepth_append, ha.balanced.depth_eq, op'.balanced_mark.depth_eq]
      at hzero
    omega
  have hle : op.precedence ≤ op'.precedence := hl.le_precedence rfl ha.balanced.depth_eq
  have hlt : op'.precedence < op.precedence := hr.le_precedence rfl hs
  omega

/-- The operator between two operands that bind tightly enough is the outermost one. -/
theorem eq_binary (hl : Reads op.precedence s l) (hr : Reads (op.precedence + 1) t r)
    (h : Reads p (s ++ (op.mark ++ t)) e) :
    ∃ l' r', e = .binary op l' r' ∧ Reads op.precedence s l' ∧
      Reads (op.precedence + 1) t r' := by
  rcases h.prefix_or_binary with h | ⟨op', l', r', s', t', rfl, heq, hl', hr'⟩
  · exact absurd rfl (h.ne_binary hl.balanced.depth_eq)
  · rcases hl.mark_cases hr heq with ⟨u, rfl, rfl⟩ | ⟨rfl, rfl, rfl⟩ | ⟨u, rfl, rfl⟩
    · exact (not_crossed hl' hl hr').elim
    · exact ⟨l', r', rfl, hl', hr'⟩
    · exact (not_crossed hl hl' hr).elim

/-- **A phrase has one reading.** -/
theorem unique (h : Reads p s e) (h' : Reads q s e') : e = e' := by
  induction h generalizing q e' with
  | field _ hf => exact (eq_field hf h').symm
  | parens h ih => exact ih (of_parens h h')
  | unary _ h ih =>
    obtain ⟨e₁, rfl, h₁⟩ := eq_unary h h'
    rw [ih h₁]
  | cast _ h ih =>
    obtain ⟨e₁, rfl, h₁⟩ := eq_cast h h'
    rw [ih h₁]
  | binary _ hl hr ihl ihr =>
    obtain ⟨l, r, rfl, hl', hr'⟩ := eq_binary hl hr h'
    rw [ihl hl', ihr hr']

end Reads

/-! ## The printed text -/

section Parenthesized

variable {p q : Nat}

theorem toList_parenthesized (p q : Nat) (text : String) : (parenthesized p q text).toList =
    if q < p then '(' :: (text.toList ++ [')']) else text.toList := by
  unfold parenthesized
  split_ifs <;> simp

theorem parenthesized_of_le (h : p ≤ q) (text : String) : parenthesized p q text = text :=
  if_neg (Nat.not_lt_of_le h)

end Parenthesized

namespace Expr

theorem toList_text_unary (op : UnaryOp) (e : Expr) : (unary op e).text.toList =
    op.sign :: (parenthesized prefixPrecedence e.precedence e.text).toList := by
  simp [text, op.toList_symbol]

theorem toList_text_cast (ty : DataType) (e : Expr) : (cast ty e).text.toList =
    ty.castWord ++ ' ' :: (parenthesized prefixPrecedence e.precedence e.text).toList := by
  simp [text, DataType.castWord]

theorem toList_text_binary (op : BinaryOp) (l r : Expr) : (binary op l r).text.toList =
    (parenthesized op.precedence l.precedence l.text).toList ++ (op.mark ++
      (parenthesized (op.precedence + 1) r.precedence r.text).toList) := by
  simp [text, BinaryOp.mark]

/-- In parentheses a phrase fits everywhere. -/
theorem reads_parenthesized {e : Expr} (h : ∀ p, p ≤ e.precedence → Reads p e.text.toList e)
    (p : Nat) : Reads p (parenthesized p e.precedence e.text).toList e := by
  rw [toList_parenthesized]
  split_ifs with hp
  · exact .parens (h 0 (Nat.zero_le _))
  · exact h p (Nat.le_of_not_lt hp)

/-- The text of an expression over named constants is a phrase that stands for it. -/
theorem reads_text {e : Expr} (he : e.IsSymbolic) {p : Nat} (hp : p ≤ e.precedence) :
    Reads p e.text.toList e := by
  induction e generalizing p with
  | literal => exact he.elim
  | field f => exact .field hp he
  | unary op e ih =>
    rw [toList_text_unary]
    exact .unary hp (reads_parenthesized (fun _ => ih he) _)
  | cast ty e ih =>
    rw [toList_text_cast]
    exact .cast hp (reads_parenthesized (fun _ => ih he) _)
  | binary op l r ihl ihr =>
    rw [toList_text_binary]
    exact .binary hp (reads_parenthesized (fun _ => ihl he.1) _)
      (reads_parenthesized (fun _ => ihr he.2) _)

end Expr

/-- **The printed text is a part of every phrase for the expression.**  What a phrase has more
    are parentheses. -/
theorem Reads.sublist {p : Nat} {s : List Char} {e : Expr} (h : Reads p s e) :
    (parenthesized p e.precedence e.text).toList.Sublist s := by
  induction h with
  | field hp =>
    rw [parenthesized_of_le hp]
    exact .refl _
  | @parens p s e _ ih =>
    rw [parenthesized_of_le (Nat.zero_le _)] at ih
    rw [toList_parenthesized]
    split_ifs
    · exact (ih.append_right [')']).cons_cons '('
    · exact (ih.trans (List.sublist_append_left s [')'])).cons '('
  | unary hp _ ih =>
    rw [parenthesized_of_le hp, Expr.toList_text_unary]
    exact ih.cons_cons _
  | cast hp _ ih =>
    rw [parenthesized_of_le hp, Expr.toList_text_cast]
    exact (ih.cons_cons ' ').append_left _
  | binary hp _ _ ihl ihr =>
    rw [parenthesized_of_le hp, Expr.toList_text_binary]
    exact ihl.append (ihr.append_left _)

namespace Expr

/-- **Texts of expressions are unambiguous.**  Different expressions over named constants have
    different texts.  Each text is a phrase that stands for its expression, and every phrase that
    does has the text as a part of it, so that no parenthesis can be left out. -/
theorem text_unambiguous {e : Expr} (he : e.IsSymbolic) :
    (∀ e' : Expr, e'.IsSymbolic → e' ≠ e → e'.text ≠ e.text) ∧
    Reads 0 e.text.toList e ∧ ∀ s, Reads 0 s e → e.text.toList.Sublist s := by
  have hreads : Reads 0 e.text.toList e := reads_text he (Nat.zero_le _)
  refine ⟨fun e' he' hne heq => hne ?_, hreads, fun s hs => ?_⟩
  · have hreads' : Reads 0 e'.text.toList e' := reads_text he' (Nat.zero_le _)
    rw [heq] at hreads'
    exact hreads'.unique hreads
  · have hsub := hs.sublist
    rw [parenthesized_of_le (Nat.zero_le _)] at hsub
    exact hsub

/-- A static constant by its name alone. -/
def constant (owner name : String) : Expr := field ⟨owner, some name, none, true⟩

theorem isSymbolic_constant {owner name : String}
    (howner : owner.toList.all fun c => c = '/' ∨ IsNameChar c)
    (hname : name.toList.all (IsNameChar ·)) : (constant owner name).IsSymbolic :=
  ⟨rfl, rfl, List.all_iff_forall_prop.1 howner, name, rfl, List.all_iff_forall_prop.1 hname⟩

/-- The difference of a constant and a difference. -/
def nestedDifference : Expr :=
  binary .sub (constant "p/C" "A") (binary .sub (constant "p/C" "B") (constant "D" "A"))

/-- The difference of a difference and a constant. -/
def chainedDifference : Expr :=
  binary .sub (binary .sub (constant "p/C" "A") (constant "p/C" "B")) (constant "D" "A")

theorem text_unambiguous_difference :
    nestedDifference.IsSymbolic ∧ chainedDifference.IsSymbolic ∧
    chainedDifference ≠ nestedDifference ∧ nestedDifference.text = "p.C.A - (p.C.B - D.A)" ∧
    chainedDifference.text = "p.C.A - p.C.B - D.A" ∧
    chainedDifference.text ≠ nestedDifference.text ∧
    Reads 0 "p.C.A - (p.C.B - D.A)".toList nestedDifference ∧
    ∀ s, Reads 0 s nestedDifference → "p.C.A - (p.C.B - D.A)".toList.Sublist s := by
  have hA : (constant "p/C" "A").IsSymbolic := isSymbolic_constant (by decide) (by decide)
  have hB : (constant "p/C" "B").IsSymbolic := isSymbolic_constant (by decide) (by decide)
  have hD : (constant "D" "A").IsSymbolic := isSymbolic_constant (by decide) (by decide)
  have hnested : nestedDifference.IsSymbolic := ⟨hA, hB, hD⟩
  have hchained : chainedDifference.IsSymbolic := ⟨⟨hA, hB⟩, hD⟩
  have hne : chainedDifference ≠ nestedDifference := by decide
  have htext : nestedDifference.text = "p.C.A - (p.C.B - D.A)" := by cbv
  obtain ⟨hunique, hreads, hleast⟩ := text_unambiguous hnested
  rw [← htext]
  exact ⟨hnested, hchained, hne, rfl, by cbv, hunique _ hchained hne, hreads, hleast⟩

end Expr

end ConstRestore
