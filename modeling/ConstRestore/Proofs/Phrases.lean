/-
  Phrases of source text.

  `Reads p s e` is the grammar: the phrase `s` stands for the expression `e` in a place where `e`
  must bind at least as tightly as `p`.  Operators have their precedences and associate to the
  left, and any phrase may be put in parentheses.  Expressions are those over named constants
  (`Expr.IsSymbolic`).

  * The parentheses of a phrase are pairs (`Reads.balanced`), so it is known which operators stand
    outside of parentheses.
  * Phrases neither end with the beginning of an operator nor begin with the end of one.  So where
    an operator stands in a text that is made of two phrases and an operator, it is that operator
    or stands within one of the phrases (`Reads.mark_cases`).
  * An operator outside of parentheses binds at least as tightly as the phrase must
    (`Reads.le_precedence`).
-/
import ConstRestore.Expr
import Mathlib.Data.Bool.AllAny
import Mathlib.Data.List.Basic
import Mathlib.Tactic.SplitIfs

namespace ConstRestore

/-- Texts around the first place of a character are the same on both sides of it. -/
theorem eq_of_append_cons_eq {α : Type} {a : α} {x x' z z' : List α} (hx : a ∉ x) (hx' : a ∉ x')
    (h : x ++ a :: z = x' ++ a :: z') : x = x' ∧ z = z' := by
  rcases List.append_eq_append_iff.1 h with ⟨u, rfl, hu⟩ | ⟨u, rfl, hu⟩
  · cases u with
    | nil => simpa using hu
    | cons c u =>
      obtain ⟨rfl, -⟩ := List.cons.inj hu
      simp at hx'
  · cases u with
    | nil => simpa using hu.symm
    | cons c u =>
      obtain ⟨rfl, -⟩ := List.cons.inj hu
      simp at hx

/-! ## Names -/

/-- The characters of binary operators and of the spaces around them. -/
def markChars : List Char := [' ', '+', '-', '*', '/', '%', '&', '|', '^', '<', '>']

/-- A character of a name: none that operators, casts, parentheses and paths are written with. -/
def IsNameChar (c : Char) : Prop := c ∉ markChars ++ ['~', '(', ')', '.']

instance : DecidablePred IsNameChar := fun _ => inferInstanceAs (Decidable (_ ∉ _))

/-- Letters and digits are characters of names. -/
example : "azAZ09_$éλ中".toList.all (IsNameChar ·) := by decide

/-- A reference to a static constant by its name alone. -/
structure FieldRef.IsSymbol (f : FieldRef) : Prop where
  isStatic : f.isStatic
  untyped : f.declaredType = none
  owner : ∀ c ∈ f.owner.toList, c = '/' ∨ IsNameChar c
  name : ∃ name, f.name = some name ∧ ∀ c ∈ name.toList, IsNameChar c

/-- An expression over named constants. -/
def Expr.IsSymbolic : Expr → Prop
  | literal _ => False
  | field f => f.IsSymbol
  | unary _ e | cast _ e => e.IsSymbolic
  | binary _ l r => l.IsSymbolic ∧ r.IsSymbolic

namespace FieldRef

variable {f g : FieldRef} {c : Char}

theorem toList_text (f : FieldRef) : f.text.toList =
    (f.owner.toList.map fun c => if c = '/' then '.' else c) ++
      '.' :: (f.name.getD "*").toList := by
  simp [text, dottedName]

theorem text_ne_nil (f : FieldRef) : f.text.toList ≠ [] := by
  simp [toList_text]

theorem IsSymbol.mem_text (h : f.IsSymbol) (hc : c ∈ f.text.toList) : c = '.' ∨ IsNameChar c := by
  obtain ⟨name, hname, hchars⟩ := h.name
  rw [toList_text, hname] at hc
  rcases List.mem_append.1 hc with hc | hc
  · obtain ⟨c', hc', rfl⟩ := List.mem_map.1 hc
    rcases h.owner c' hc' with rfl | hc'
    · exact .inl rfl
    · have : c' ≠ '/' := by rintro rfl; exact absurd hc' (by decide)
      simpa [this] using Or.inr hc'
  · rcases List.mem_cons.1 hc with rfl | hc
    · exact .inl rfl
    · exact .inr (hchars c hc)

theorem IsSymbol.not_mem (h : f.IsSymbol) (hc : ¬ IsNameChar c ∧ c ≠ '.') : c ∉ f.text.toList :=
  fun hmem => (h.mem_text hmem).elim hc.2 hc.1

theorem IsSymbol.ne_cons (h : f.IsSymbol) (hc : ¬ IsNameChar c ∧ c ≠ '.') (t : List Char) :
    f.text.toList ≠ c :: t := fun ht =>
  h.not_mem hc (ht ▸ List.mem_cons_self)

theorem IsSymbol.not_mem_markChars (h : f.IsSymbol) (hc : c ∈ f.text.toList) :
    c ∉ markChars := by
  intro hmem
  rcases h.mem_text hc with rfl | hname
  · exact absurd hmem (by decide)
  · exact hname (List.mem_append_left _ hmem)

/-- The points in the text of an owner were slashes, for owners have no points. -/
theorem IsSymbol.owner_eq (h : f.IsSymbol) :
    (f.owner.toList.map fun c => if c = '/' then '.' else c).map
      (fun c => if c = '.' then '/' else c) = f.owner.toList := by
  rw [List.map_map]
  refine (List.map_congr_left fun c hc => ?_).trans (List.map_id _)
  rcases h.owner c hc with rfl | hc
  · rfl
  · have h₁ : c ≠ '/' := by rintro rfl; exact absurd hc (by decide)
    have h₂ : c ≠ '.' := by rintro rfl; exact absurd hc (by decide)
    simp [h₁, h₂]

/-- The name of a constant is what stands after the last point. -/
theorem IsSymbol.exists_name (h : f.IsSymbol) : ∃ name, f.name = some name ∧
    '.' ∉ name.toList.reverse ∧ f.text.toList.reverse = name.toList.reverse ++
      '.' :: (f.owner.toList.map fun c => if c = '/' then '.' else c).reverse := by
  obtain ⟨name, hname, hchars⟩ := h.name
  refine ⟨name, hname, fun hmem => ?_, ?_⟩
  · exact absurd (hchars '.' (List.mem_reverse.1 hmem)) (by decide)
  · simp [toList_text, hname]

theorem IsSymbol.eq_of_text (hf : f.IsSymbol) (hg : g.IsSymbol) (h : f.text = g.text) :
    f = g := by
  obtain ⟨name, hname, hpoint, htext⟩ := hf.exists_name
  obtain ⟨name', hname', hpoint', htext'⟩ := hg.exists_name
  rw [h, htext'] at htext
  obtain ⟨hnames, howners⟩ := eq_of_append_cons_eq hpoint' hpoint htext
  have hnames : name' = name := String.toList_inj.1 (List.reverse_inj.1 hnames)
  have howner : f.owner = g.owner := by
    rw [← String.toList_inj, ← hf.owner_eq, ← hg.owner_eq, List.reverse_inj.1 howners]
  have hname : f.name = g.name := by rw [hname, hname', hnames]
  have htype : f.declaredType = g.declaredType := hf.untyped.trans hg.untyped.symm
  have hstatic : f.isStatic = g.isStatic := hf.isStatic.trans hg.isStatic.symm
  cases f
  cases g
  simp_all only

end FieldRef

/-! ## Operators and casts -/

/-- A binary operator as it stands between its operands. -/
def BinaryOp.mark (op : BinaryOp) : List Char := ' ' :: (op.symbol.toList ++ [' '])

/-- The character that a unary operator is written with. -/
def UnaryOp.sign : UnaryOp → Char
  | negate => '-'
  | complement => '~'

/-- The target of a cast as it stands before a space and the operand. -/
def DataType.castWord (ty : DataType) : List Char := '(' :: (ty.name.toList ++ [')'])

namespace BinaryOp

variable {op op' : BinaryOp} {s t : List Char}

theorem precedence_lt (op : BinaryOp) : op.precedence < prefixPrecedence := by
  cases op <;> decide

theorem space_not_mem_symbol (op : BinaryOp) : ' ' ∉ op.symbol.toList := by
  cases op <;> decide

theorem symbol_inj (h : op.symbol.toList = op'.symbol.toList) : op = op' := by
  revert h
  cases op <;> cases op' <;> decide

theorem mem_markChars {c : Char} (h : c ∈ op.mark) : c ∈ markChars := by
  have hall : op.mark.all (· ∈ markChars) := by cases op <;> decide
  exact List.all_iff_forall_prop.1 hall c h

theorem mark_append (op : BinaryOp) (t : List Char) :
    op.mark ++ t = ' ' :: (op.symbol.toList ++ ' ' :: t) := by
  simp [mark]

theorem mark_append_ne_nil (op : BinaryOp) (t : List Char) : op.mark ++ t ≠ [] := by
  simp [mark]

theorem mark_inj (h : op.mark ++ s = op'.mark ++ t) : op = op' ∧ s = t := by
  rw [mark_append, mark_append, List.cons_inj_right] at h
  obtain ⟨hop, hst⟩ := eq_of_append_cons_eq (space_not_mem_symbol op) (space_not_mem_symbol op') h
  exact ⟨symbol_inj hop, hst⟩

/-- An operator after the beginning of a text that is one word comes after the word. -/
theorem mark_after_word {w x a b : List Char} (hw : ' ' ∉ w) (h : w ++ x = a ++ (op.mark ++ b)) :
    ∃ a', a = w ++ a' ∧ x = a' ++ (op.mark ++ b) := by
  rcases List.append_eq_append_iff.1 h with ⟨a', rfl, hx⟩ | ⟨u, rfl, hu⟩
  · exact ⟨a', rfl, hx⟩
  · cases u with
    | nil => exact ⟨[], by simp, by simpa using hu.symm⟩
    | cons c u =>
      rw [mark_append] at hu
      obtain ⟨rfl, -⟩ := List.cons.inj hu
      simp at hw

end BinaryOp

namespace UnaryOp

variable {op op' : UnaryOp}

theorem toList_symbol (op : UnaryOp) : op.symbol.toList = [op.sign] := by
  cases op <;> rfl

theorem sign_inj (h : op.sign = op'.sign) : op = op' := by
  revert h
  cases op <;> cases op' <;> decide

theorem space_not_mem_sign (op : UnaryOp) : ' ' ∉ [op.sign] := by
  cases op <;> decide

theorem sign_ne_paren (op : UnaryOp) : op.sign ≠ '(' := by
  cases op <;> decide

theorem not_isNameChar_sign (op : UnaryOp) : ¬ IsNameChar op.sign ∧ op.sign ≠ '.' := by
  cases op <;> decide

end UnaryOp

namespace DataType

variable {ty ty' : DataType} {s t : List Char}

theorem space_not_mem_castWord (ty : DataType) : ' ' ∉ ty.castWord := by
  cases ty <;> decide

theorem castWord_inj (h : ty.castWord ++ ' ' :: s = ty'.castWord ++ ' ' :: t) :
    ty = ty' ∧ s = t := by
  obtain ⟨hword, hst⟩ :=
    eq_of_append_cons_eq ty.space_not_mem_castWord ty'.space_not_mem_castWord h
  refine ⟨?_, hst⟩
  revert hword
  cases ty <;> cases ty' <;> decide

end DataType

/-! ## Parentheses -/

/-- How many parentheses are open after a text. -/
def parenDepth (s : List Char) : Int := s.count '(' - s.count ')'

@[simp] theorem parenDepth_append (s t : List Char) :
    parenDepth (s ++ t) = parenDepth s + parenDepth t := by
  simp only [parenDepth, List.count_append]
  omega

theorem parenDepth_cons (c : Char) (s : List Char) :
    parenDepth (c :: s) = parenDepth [c] + parenDepth s :=
  parenDepth_append [c] s

theorem parenDepth_of_plain {s : List Char} (h : '(' ∉ s ∧ ')' ∉ s) : parenDepth s = 0 := by
  simp [parenDepth, List.count_eq_zero.2 h.1, List.count_eq_zero.2 h.2]

/-- The parentheses of a text are pairs. -/
structure Balanced (s : List Char) : Prop where
  depth_eq : parenDepth s = 0
  depth_nonneg : ∀ a, a <+: s → 0 ≤ parenDepth a

namespace Balanced

variable {s t a : List Char}

theorem of_plain (h : '(' ∉ s ∧ ')' ∉ s) : Balanced s := by
  refine ⟨parenDepth_of_plain h, fun a ha => ?_⟩
  have hplain : '(' ∉ a ∧ ')' ∉ a :=
    ⟨fun hmem => h.1 (ha.subset hmem), fun hmem => h.2 (ha.subset hmem)⟩
  exact Int.le_of_eq (parenDepth_of_plain hplain).symm

theorem append (hs : Balanced s) (ht : Balanced t) : Balanced (s ++ t) := by
  refine ⟨by rw [parenDepth_append, hs.depth_eq, ht.depth_eq, Int.add_zero], ?_⟩
  rintro a ⟨b, hab⟩
  rcases List.append_eq_append_iff.1 hab with ⟨u, rfl, -⟩ | ⟨u, rfl, rfl⟩
  · exact hs.depth_nonneg a (List.prefix_append a u)
  · rw [parenDepth_append, hs.depth_eq, Int.zero_add]
    exact ht.depth_nonneg u (List.prefix_append u b)

/-- Before its last character, a text in parentheses has one open. -/
theorem depth_pos (hs : Balanced s) (ha : a <+: s ++ [')']) (hne : a ≠ s ++ [')']) :
    0 < parenDepth ('(' :: a) := by
  have hnonneg := hs.depth_nonneg a ((List.prefix_concat_iff.1 ha).resolve_left hne)
  rw [parenDepth_cons]
  change 0 < 1 + parenDepth a
  omega

theorem enclose (hs : Balanced s) : Balanced ('(' :: (s ++ [')'])) := by
  have hdepth : parenDepth ('(' :: (s ++ [')'])) = 0 := by
    rw [parenDepth_cons, parenDepth_append, hs.depth_eq]
    rfl
  refine ⟨hdepth, fun a ha => ?_⟩
  rcases List.prefix_cons_iff.1 ha with rfl | ⟨a', rfl, ha'⟩
  · exact Int.le_refl 0
  · by_cases hend : a' = s ++ [')']
    · subst hend
      exact Int.le_of_eq hdepth.symm
    · exact Int.le_of_lt (hs.depth_pos ha' hend)

/-- An operator in a text in parentheses stands inside of them. -/
theorem depth_ne_zero {op : BinaryOp} {b : List Char} (hs : Balanced s)
    (h : '(' :: (s ++ [')']) = a ++ (op.mark ++ b)) : parenDepth a ≠ 0 := by
  obtain ⟨a, rfl, htail⟩ := BinaryOp.mark_after_word (w := ['(']) (by decide) h
  have hne : a ≠ s ++ [')'] := fun heq =>
    op.mark_append_ne_nil b (List.append_right_eq_self.1 (heq ▸ htail).symm)
  have hpos : 0 < parenDepth (['('] ++ a) := hs.depth_pos ⟨_, htail.symm⟩ hne
  exact Int.ne_of_gt hpos

end Balanced

theorem BinaryOp.balanced_mark (op : BinaryOp) : Balanced op.mark := by
  cases op <;> exact .of_plain (by decide)

theorem UnaryOp.balanced_sign (op : UnaryOp) : Balanced [op.sign] := by
  cases op <;> exact .of_plain (by decide)

theorem DataType.balanced_castWord (ty : DataType) : Balanced ty.castWord := by
  cases ty <;> exact (Balanced.of_plain (by decide)).enclose

/-! ## The grammar -/

/-- The phrase `s` stands for the expression `e`, in a place where `e` must bind at least as
    tightly as `p` unless it is in parentheses.  The right operand of an operator must bind more
    tightly than the operator itself. -/
inductive Reads : Nat → List Char → Expr → Prop
  | field {p : Nat} {f : FieldRef} (hp : p ≤ (Expr.field f).precedence) (hf : f.IsSymbol) :
      Reads p f.text.toList (.field f)
  | parens {p : Nat} {s : List Char} {e : Expr} (h : Reads 0 s e) :
      Reads p ('(' :: (s ++ [')'])) e
  | unary {p : Nat} {op : UnaryOp} {s : List Char} {e : Expr}
      (hp : p ≤ (Expr.unary op e).precedence) (h : Reads prefixPrecedence s e) :
      Reads p (op.sign :: s) (.unary op e)
  | cast {p : Nat} {ty : DataType} {s : List Char} {e : Expr}
      (hp : p ≤ (Expr.cast ty e).precedence) (h : Reads prefixPrecedence s e) :
      Reads p (ty.castWord ++ ' ' :: s) (.cast ty e)
  | binary {p : Nat} {op : BinaryOp} {s t : List Char} {l r : Expr}
      (hp : p ≤ (Expr.binary op l r).precedence) (hl : Reads op.precedence s l)
      (hr : Reads (op.precedence + 1) t r) : Reads p (s ++ (op.mark ++ t)) (.binary op l r)

namespace Reads

variable {p q : Nat} {s t a b : List Char} {e e' : Expr} {op op' : BinaryOp}

theorem balanced (h : Reads p s e) : Balanced s := by
  induction h with
  | field _ hf => exact .of_plain ⟨hf.not_mem (by decide), hf.not_mem (by decide)⟩
  | parens _ ih => exact ih.enclose
  | @unary _ op _ _ _ _ ih => exact op.balanced_sign.append ih
  | @cast _ ty _ _ _ _ ih =>
    exact ty.balanced_castWord.append ((Balanced.of_plain (s := [' ']) (by decide)).append ih)
  | @binary _ op _ _ _ _ _ _ _ ihl ihr => exact ihl.append (op.balanced_mark.append ihr)

/-! ### Where phrases begin and end -/

/-- A phrase ends with the end of a name or a parenthesis. -/
theorem exists_last (h : Reads p s e) : ∃ t c, s = t ++ [c] ∧ c ∉ markChars := by
  induction h with
  | @field _ f _ hf =>
    exact ⟨_, _, (List.dropLast_append_getLast f.text_ne_nil).symm,
      hf.not_mem_markChars (List.getLast_mem f.text_ne_nil)⟩
  | @parens _ s => exact ⟨'(' :: s, ')', rfl, by decide⟩
  | @unary _ op _ _ _ _ ih =>
    obtain ⟨t, c, rfl, hc⟩ := ih
    exact ⟨op.sign :: t, c, rfl, hc⟩
  | @cast _ ty _ _ _ _ ih =>
    obtain ⟨t, c, rfl, hc⟩ := ih
    exact ⟨ty.castWord ++ ' ' :: t, c, by simp, hc⟩
  | @binary _ op s _ _ _ _ _ _ _ ih =>
    obtain ⟨t, c, rfl, hc⟩ := ih
    exact ⟨s ++ (op.mark ++ t), c, by simp, hc⟩

/-- No phrase ends with the beginning of an operator. -/
theorem eq_nil_of_mark_eq {u v x : List Char} (h : Reads p (x ++ u) e) (hu : op.mark = u ++ v) :
    u = [] := by
  obtain ⟨t, c, ht, hc⟩ := h.exists_last
  rcases List.eq_nil_or_concat u with rfl | ⟨u, c', rfl⟩
  · rfl
  · rw [List.concat_eq_append, ← List.append_assoc] at ht
    obtain ⟨-, hlast⟩ := List.append_inj' ht rfl
    obtain rfl := List.singleton_inj.1 hlast
    have hmem : c' ∈ op.mark := by simp [hu]
    exact absurd (BinaryOp.mem_markChars hmem) hc

/-- A phrase begins with a character of no operator, or with the sign of another phrase. -/
theorem exists_first (h : Reads p s e) :
    (∃ c t, s = c :: t ∧ c ∉ markChars) ∨ ∃ q t u e', s = '-' :: (t ++ u) ∧ Reads q t e' := by
  induction h with
  | @field _ f _ hf =>
    obtain ⟨c, t, ht⟩ := List.exists_cons_of_ne_nil f.text_ne_nil
    exact .inl ⟨c, t, ht, hf.not_mem_markChars (ht ▸ List.mem_cons_self)⟩
  | parens | cast => exact .inl ⟨'(', _, rfl, by decide⟩
  | @unary _ op s e _ h =>
    cases op with
    | negate => exact .inr ⟨_, s, [], e, by simp [UnaryOp.sign], h⟩
    | complement => exact .inl ⟨'~', s, rfl, by decide⟩
  | @binary _ op _ t _ _ _ _ _ ih =>
    rcases ih with ⟨c, s, rfl, hc⟩ | ⟨q, s, u, e', rfl, hs⟩
    · exact .inl ⟨c, _, rfl, hc⟩
    · exact .inr ⟨q, s, u ++ (op.mark ++ t), e', by simp, hs⟩

theorem append_ne_space (h : Reads p s e) (k b : List Char) : s ++ k ≠ ' ' :: b := by
  intro heq
  rcases h.exists_first with ⟨c, t, rfl, hc⟩ | ⟨q, t, u, e', rfl, -⟩
  · obtain ⟨rfl, -⟩ := List.cons.inj heq
    exact hc (by decide)
  · exact absurd (List.cons.inj heq).1 (by decide)

theorem ne_space (h : Reads p s e) (b : List Char) : s ≠ ' ' :: b := fun hs =>
  h.append_ne_space [] b ((List.append_nil s).trans hs)

/-- No phrase begins with an operator and a space: a sign has its operand next to it. -/
theorem ne_symbol (h : Reads p s e) (b : List Char) : s ≠ op.symbol.toList ++ ' ' :: b := by
  intro heq
  rcases h.exists_first with ⟨c, t, rfl, hc⟩ | ⟨q, t, u, e', rfl, h'⟩
  · cases op <;> exact hc ((List.cons.inj heq).1 ▸ by decide)
  · cases op with
    | sub => exact h'.append_ne_space u b (List.cons.inj heq).2
    | _ => exact absurd (List.cons.inj heq).1 (by decide)

/-! ### Operators outside of parentheses -/

/-- In a text that is made of an operator and a phrase, an operator is the one before the phrase
    or stands in the phrase. -/
theorem mark_cases_right {u : List Char} (h : Reads p t e)
    (heq : op.mark ++ t = u ++ (op'.mark ++ b)) :
    (u = [] ∧ op = op' ∧ t = b) ∨ ∃ v, u = op.mark ++ v ∧ t = v ++ (op'.mark ++ b) := by
  rcases List.append_eq_append_iff.1 heq with ⟨v, rfl, ht⟩ | ⟨v, hv, ht⟩
  · exact .inr ⟨v, rfl, ht⟩
  · cases u with
    | nil =>
      obtain ⟨hop, htb⟩ := BinaryOp.mark_inj heq
      exact .inl ⟨rfl, hop, htb⟩
    | cons c u =>
      -- `op'` would begin within `op`: with the space after it, or after that
      obtain ⟨rfl, hsymbol⟩ := List.cons.inj hv
      change op.symbol.toList ++ [' '] = u ++ v at hsymbol
      rw [BinaryOp.mark_append] at ht
      rcases List.eq_nil_or_concat v with rfl | ⟨v, c, rfl⟩
      · exact absurd ht.symm (h.ne_space _)
      · rw [List.concat_eq_append, ← List.append_assoc] at hsymbol
        obtain ⟨hsymbol', hc⟩ := List.append_inj' hsymbol rfl
        obtain rfl := List.singleton_inj.1 hc
        cases v with
        | nil => exact absurd (List.cons.inj ht).2.symm (h.ne_symbol b)
        | cons c v =>
          obtain ⟨rfl, -⟩ := List.cons.inj ht
          have hmem : ' ' ∈ op.symbol.toList := by rw [hsymbol']; simp
          exact absurd hmem op.space_not_mem_symbol

/-- In a text that is made of two phrases with an operator between them, an operator is that one
    or stands in one of the phrases. -/
theorem mark_cases (hs : Reads p s e) (ht : Reads q t e')
    (h : s ++ (op.mark ++ t) = a ++ (op'.mark ++ b)) :
    (∃ u, s = a ++ (op'.mark ++ u) ∧ b = u ++ (op.mark ++ t)) ∨ (s = a ∧ op = op' ∧ t = b) ∨
      ∃ u, a = s ++ (op.mark ++ u) ∧ t = u ++ (op'.mark ++ b) := by
  rcases List.append_eq_append_iff.1 h with ⟨u, rfl, hu⟩ | ⟨u, rfl, hu⟩
  · rcases ht.mark_cases_right hu with ⟨rfl, hop, htb⟩ | ⟨v, rfl, htv⟩
    · exact .inr (.inl ⟨(List.append_nil s).symm, hop, htb⟩)
    · exact .inr (.inr ⟨v, rfl, htv⟩)
  · rcases List.append_eq_append_iff.1 hu with ⟨v, rfl, hb⟩ | ⟨v, hmark, -⟩
    · exact .inl ⟨v, rfl, hb⟩
    · obtain rfl := hs.eq_nil_of_mark_eq hmark
      obtain ⟨rfl, hbt⟩ := BinaryOp.mark_inj hu
      exact .inr (.inl ⟨List.append_nil a, rfl, hbt.symm⟩)

/-- **An operator outside of parentheses binds at least as tightly as the phrase must.** -/
theorem le_precedence (h : Reads p s e) (hs : s = a ++ (op.mark ++ b)) (ha : parenDepth a = 0) :
    p ≤ op.precedence := by
  induction h generalizing a b with
  | @field _ f _ hf =>
    have hspace : ' ' ∈ f.text.toList := by rw [hs]; simp [BinaryOp.mark]
    exact absurd hspace (hf.not_mem (by decide))
  | parens h => exact absurd ha (h.balanced.depth_ne_zero hs)
  | @unary _ op' _ _ hp _ ih =>
    obtain ⟨a', rfl, hs'⟩ :=
      BinaryOp.mark_after_word (w := [op'.sign]) op'.space_not_mem_sign hs
    rw [parenDepth_append, op'.balanced_sign.depth_eq, Int.zero_add] at ha
    exact Nat.le_trans hp (ih hs' ha)
  | @cast _ ty _ _ hp h ih =>
    obtain ⟨a', rfl, hs'⟩ := BinaryOp.mark_after_word ty.space_not_mem_castWord hs
    rw [parenDepth_append, ty.balanced_castWord.depth_eq, Int.zero_add] at ha
    cases a' with
    | nil =>
      rw [List.nil_append, BinaryOp.mark_append] at hs'
      exact absurd (List.cons.inj hs').2 (h.ne_symbol b)
    | cons c a' =>
      obtain ⟨rfl, hs''⟩ := List.cons.inj hs'
      rw [parenDepth_cons, parenDepth_of_plain (s := [' ']) (by decide), Int.zero_add] at ha
      exact Nat.le_trans hp (ih hs'' ha)
  | @binary _ op' _ _ _ _ hp hl hr ihl ihr =>
    rcases hl.mark_cases hr hs with ⟨u, hsu, -⟩ | ⟨-, rfl, -⟩ | ⟨u, rfl, htu⟩
    · exact Nat.le_trans hp (ihl hsu ha)
    · exact hp
    · rw [parenDepth_append, parenDepth_append, hl.balanced.depth_eq,
        op'.balanced_mark.depth_eq] at ha
      exact Nat.le_trans hp (Nat.le_of_succ_le (ihr htu (by omega)))

/-- An operand of a unary operator or a cast has binary operators in parentheses only. -/
theorem ne_binary (h : Reads prefixPrecedence s e) (ha : parenDepth a = 0) :
    s ≠ a ++ (op.mark ++ b) := fun hs =>
  absurd (h.le_precedence hs ha) (Nat.not_le_of_lt op.precedence_lt)

end Reads

end ConstRestore
