/-
  The classes of a fact table.

  What an operation on the trees does to the classes: nothing outside this
  module reads parents or weights.

  * `root?_mention`, `root?_record` and `root?_join` say which root every source
    has afterwards, `factsAt_record` and `factsAt_join` where the facts are;
  * `compress` changes neither (`root?_compress`, `factsAt_compress`);
  * `root?_root` says that a root is the root of its own class.
-/
import ConstRestore.Dataflow.Facts
import ConstRestore.Proofs.Result

namespace ConstRestore

namespace FactTable

variable {t u : FactTable} {s x root : Source} {n : Node}

/-! ## The way to a root -/

theorem root?_eq (t : FactTable) (s : Source) :
    t.root? s = (t.nodes.get? s).bind fun n =>
      if n.parent = s then some s else t.root? n.parent := by
  rw [FactTable.root?]
  split <;> simp_all

theorem root?_of_root (h : t.nodes.get? s = some n) (hroot : n.parent = s) :
    t.root? s = some s := by
  rw [root?_eq, h, Option.bind_some, if_pos hroot]

theorem root?_of_link (h : t.nodes.get? s = some n) (hlink : n.parent ≠ s) :
    t.root? s = t.root? n.parent := by
  rw [root?_eq, h, Option.bind_some, if_neg hlink]

theorem root?_of_unknown (h : t.nodes.get? s = none) : t.root? s = none := by
  rw [root?_eq, h, Option.bind_none]

/-- The way to a root as an induction: sources that are not known, roots, and
    sources below their parents. -/
theorem climb {motive : Source → Prop} (t : FactTable)
    (unknown : ∀ s, t.nodes.get? s = none → motive s)
    (root : ∀ s n, t.nodes.get? s = some n → n.parent = s → motive s)
    (link : ∀ s n, t.nodes.get? s = some n → n.parent ≠ s → motive n.parent → motive s)
    (s : Source) : motive s := by
  fun_induction FactTable.root? t s with
  | case1 s hs => exact unknown s hs
  | case2 n hs => exact root n.parent n hs rfl
  | case3 s n hs hlink ih => exact link s n hs hlink ih

theorem isSome_root? (t : FactTable) (s : Source) :
    (t.root? s).isSome = (t.nodes.get? s).isSome := by
  induction s using climb t with
  | unknown s hs => rw [root?_of_unknown hs, hs, Option.isSome_none, Option.isSome_none]
  | root s n hs hroot => rw [root?_of_root hs hroot, hs, Option.isSome_some, Option.isSome_some]
  | link s n hs hlink ih =>
    obtain ⟨p, hp, -⟩ := (t.rising s n hs).resolve_left hlink
    rw [root?_of_link hs hlink, ih, hs, hp, Option.isSome_some, Option.isSome_some]

/-- A root has itself for a parent. -/
theorem node_of_root? (h : t.root? s = some root) :
    ∃ r, t.nodes.get? root = some r ∧ r.parent = root := by
  induction s using climb t with
  | unknown s hs => cases (root?_of_unknown hs).symm.trans h
  | root s n hs hroot =>
    obtain rfl := Option.some.inj ((root?_of_root hs hroot).symm.trans h)
    exact ⟨n, hs, hroot⟩
  | link s n hs hlink ih => exact ih ((root?_of_link hs hlink).symm.trans h)

theorem root?_root (h : t.root? s = some root) : t.root? root = some root := by
  obtain ⟨r, hr, hroot⟩ := node_of_root? h
  exact root?_of_root hr hroot

/-! ## Tables with the same links -/

theorem root?_congr (h : ∀ x, (u.nodes.get? x).map (·.parent) = (t.nodes.get? x).map (·.parent))
    (x : Source) : u.root? x = t.root? x := by
  have hnode {x : Source} {n : Node} (hx : t.nodes.get? x = some n) :
      ∃ m, u.nodes.get? x = some m ∧ m.parent = n.parent :=
    Option.map_eq_some_iff.1 ((h x).trans (by rw [hx, Option.map_some]))
  induction x using climb t with
  | unknown x hx => rw [root?_of_unknown hx, root?_of_unknown (by simpa [hx] using h x)]
  | root x n hx hroot =>
    obtain ⟨m, hm, hparent⟩ := hnode hx
    rw [root?_of_root hx hroot, root?_of_root hm (hparent.trans hroot)]
  | link x n hx hlink ih =>
    obtain ⟨m, hm, hparent⟩ := hnode hx
    rw [root?_of_link hx hlink, root?_of_link hm (hparent ▸ hlink), hparent, ih]

/-- A replaced node with the same parent changes no class. -/
theorem root?_of_nodes_eq_set {m : Node} (hu : u.nodes = t.nodes.set s m)
    (hs : t.nodes.get? s = some n) (hparent : m.parent = n.parent) (x : Source) :
    u.root? x = t.root? x := by
  refine root?_congr (fun x => ?_) x
  rw [hu, Table.get?_set]
  split_ifs with hx
  · rw [hx, hs, Option.map_some, Option.map_some, hparent]
  · rfl

/-! ## New sources -/

theorem nodes_mention (h : t.nodes.get? s = none) :
    (t.mention s).nodes = t.nodes.set s ⟨s, 1, .empty, Nat.one_pos⟩ := by
  unfold mention
  split <;> simp_all

theorem mention_of_known (h : (t.root? s).isSome) : t.mention s = t := by
  rw [isSome_root?] at h
  unfold mention
  split <;> simp_all

theorem root?_mention (t : FactTable) (s x : Source) :
    (t.mention s).root? x = (t.root? x).or (if x = s then some s else none) := by
  cases hs : t.nodes.get? s with
  | some n =>
    have hknown : (t.root? s).isSome := by rw [isSome_root?, hs, Option.isSome_some]
    rw [mention_of_known hknown]
    split_ifs with hx
    · obtain ⟨root, hroot⟩ := Option.isSome_iff_exists.1 hknown
      rw [hx, hroot, Option.some_or]
    · rw [Option.or_none]
  | none =>
    have hnodes := nodes_mention hs
    have hget {x : Source} {n : Node} (hx : t.nodes.get? x = some n) :
        x ≠ s ∧ (t.mention s).nodes.get? x = some n := by
      have hne : x ≠ s := by
        rintro rfl
        cases hs.symm.trans hx
      exact ⟨hne, by rw [hnodes, Table.get?_set, if_neg hne, hx]⟩
    induction x using climb t with
    | unknown x hx =>
      rw [root?_of_unknown hx, Option.none_or]
      split_ifs with hxs
      · subst hxs
        exact root?_of_root (by rw [hnodes, Table.get?_set, if_pos rfl]) rfl
      · exact root?_of_unknown (by rw [hnodes, Table.get?_set, if_neg hxs, hx])
    | root x n hx hroot =>
      rw [root?_of_root hx hroot, Option.some_or, root?_of_root (hget hx).2 hroot]
    | link x n hx hlink ih =>
      obtain ⟨p, hp, -⟩ := (t.rising x n hx).resolve_left hlink
      rw [root?_of_link hx hlink, root?_of_link (hget hx).2 hlink, ih, if_neg (hget hx).1,
        if_neg (hget hp).1]

theorem isSome_root?_mention (t : FactTable) (s : Source) : ((t.mention s).root? s).isSome := by
  rw [root?_mention, if_pos rfl]
  cases t.root? s <;> rfl

theorem root?_mention_of_some (h : t.root? x = some root) :
    (t.mention s).root? x = some root := by
  rw [root?_mention, h, Option.some_or]

theorem factsAt_mention (t : FactTable) (s root : Source) :
    (t.mention s).factsAt root = t.factsAt root := by
  cases hs : t.nodes.get? s with
  | some n => rw [mention_of_known (by rw [isSome_root?, hs, Option.isSome_some])]
  | none =>
    rw [factsAt, nodes_mention hs, Table.get?_set]
    split_ifs with h
    · rw [factsAt, h, hs, Option.elim_none, Option.elim_some]
    · rfl

/-! ## Shorter ways -/

/-- A redirected source, unless it was left alone. -/
theorem redirect_cases (t : FactTable) (root s : Source) :
    t.redirect root s = t ∨ ∃ n r, t.nodes.get? s = some n ∧ t.nodes.get? root = some r ∧
      n.weight < r.weight ∧ (t.redirect root s).nodes = t.nodes.set s { n with parent := root } := by
  unfold redirect
  split
  · next n r hn hr =>
    split_ifs with hlt
    · exact .inr ⟨n, r, hn, hr, hlt, rfl⟩
    · exact .inl rfl
  · exact .inl rfl

theorem factsAt_redirect (t : FactTable) (root s x : Source) :
    (t.redirect root s).factsAt x = t.factsAt x := by
  rcases t.redirect_cases root s with h | ⟨n, r, hn, -, -, h⟩
  · rw [h]
  · rw [factsAt, h, Table.get?_set]
    split_ifs with hx
    · rw [factsAt, hx, hn, Option.elim_some, Option.elim_some]
    · rfl

/-- Sources that hang lower are in the same class. -/
theorem root?_redirect (h : t.root? s = some root) (x : Source) :
    (t.redirect root s).root? x = t.root? x := by
  rcases t.redirect_cases root s with e | ⟨n, r, hn, hr, hlt, hnodes⟩
  · rw [e]
  have hne : root ≠ s := by
    rintro rfl
    obtain rfl := Option.some.inj (hn.symm.trans hr)
    exact lt_irrefl _ hlt
  have hroot : (t.redirect root s).root? root = some root := by
    obtain ⟨r', hr', hparent⟩ := node_of_root? h
    exact root?_of_root (by rw [hnodes, Table.get?_set, if_neg hne, hr']) hparent
  have hs : (t.redirect root s).root? s = some root := by
    rw [← hroot]
    exact root?_of_link (n := { n with parent := root })
      (by rw [hnodes, Table.get?_set, if_pos rfl]) hne
  by_cases hx : x = s
  · rw [hx, h, hs]
  induction x using climb t with
  | unknown x hnone =>
    rw [root?_of_unknown hnone,
      root?_of_unknown (by rw [hnodes, Table.get?_set, if_neg hx, hnone])]
  | root x m hm hxroot =>
    rw [root?_of_root hm hxroot,
      root?_of_root (by rw [hnodes, Table.get?_set, if_neg hx, hm]) hxroot]
  | link x m hm hlink ih =>
    rw [root?_of_link hm hlink,
      root?_of_link (by rw [hnodes, Table.get?_set, if_neg hx, hm]) hlink]
    by_cases hp : m.parent = s
    · rw [hp, h, hs]
    · exact ih hp

theorem root?_of_mem_ancestors (h : x ∈ t.ancestors s) : t.root? x = t.root? s := by
  fun_induction FactTable.ancestors t s with
  | case1 => cases h
  | case2 n hs => rw [List.mem_singleton.1 h]
  | case3 s n hs hlink ih =>
    rcases List.mem_cons.1 h with rfl | h
    · rfl
    · rw [ih h, root?_of_link hs hlink]

theorem root?_foldl_redirect {xs : List Source} (h : ∀ x ∈ xs, t.root? x = some root)
    (x : Source) : (xs.foldl (·.redirect root ·) t).root? x = t.root? x := by
  induction xs generalizing t with
  | nil => rfl
  | cons y ys ih =>
    have hy := root?_redirect (h y List.mem_cons_self)
    rw [List.foldl_cons, ih fun z hz => (hy z).trans (h z (List.mem_cons_of_mem _ hz)), hy]

theorem root?_compress (t : FactTable) (s x : Source) : (t.compress s).root? x = t.root? x := by
  unfold compress
  cases h : t.root? s with
  | none => rfl
  | some root => exact root?_foldl_redirect (fun y hy => (root?_of_mem_ancestors hy).trans h) x

theorem factsAt_compress (t : FactTable) (s x : Source) :
    (t.compress s).factsAt x = t.factsAt x := by
  unfold compress
  cases t.root? s with
  | none => rfl
  | some root =>
    rw [Option.elim_some]
    generalize t.ancestors s = xs
    induction xs generalizing t with
    | nil => rfl
    | cons y ys ih => rw [List.foldl_cons, ih, factsAt_redirect]

/-! ## Facts -/

theorem nodes_modifyFacts (h : t.nodes.get? s = some n) (f : Facts → Facts) :
    (t.modifyFacts s f).nodes = t.nodes.set s { n with facts := f n.facts } := by
  unfold modifyFacts
  split <;> simp_all

theorem root?_modifyFacts (t : FactTable) (s : Source) (f : Facts → Facts) (x : Source) :
    (t.modifyFacts s f).root? x = t.root? x := by
  cases h : t.nodes.get? s with
  | some n => exact root?_of_nodes_eq_set (nodes_modifyFacts h f) h rfl x
  | none =>
    unfold modifyFacts
    split <;> simp_all

theorem factsAt_modifyFacts (h : (t.root? s).isSome) (f : Facts → Facts) (x : Source) :
    (t.modifyFacts s f).factsAt x = if x = s then f (t.factsAt s) else t.factsAt x := by
  rw [isSome_root?] at h
  obtain ⟨n, hn⟩ := Option.isSome_iff_exists.1 h
  rw [factsAt, nodes_modifyFacts hn, Table.get?_set]
  split_ifs
  · rw [factsAt, hn, Option.elim_some, Option.elim_some]
  · rfl

theorem root?_record (t : FactTable) (s : Source) (fact : Fact) (x : Source) :
    (t.record s fact).root? x = (t.mention s).root? x := by
  unfold record
  dsimp only
  cases ((t.mention s).compress s).root? s with
  | none => rw [Option.elim_none, root?_compress]
  | some root => rw [Option.elim_some, root?_modifyFacts, root?_compress]

theorem factsAt_record (h : (t.mention s).root? s = some root) (fact : Fact) (x : Source) :
    (t.record s fact).factsAt x = if x = root then (t.factsAt x).add fact else t.factsAt x := by
  have hroot : ((t.mention s).compress s).root? s = some root := by rw [root?_compress, h]
  simp only [record, hroot, Option.elim_some]
  rw [factsAt_modifyFacts (by rw [root?_root hroot, Option.isSome_some]), factsAt_compress,
    factsAt_compress, factsAt_mention, factsAt_mention]
  split_ifs with hx
  · rw [hx]
  · rfl

/-! ## Joined classes -/

section Join

variable {a b : Source} (ha : t.root? a = some a) (hb : t.root? b = some b) (hne : b ≠ a)

include ha in
theorem nodes_absorb (b : Source) : ∃ n m, t.nodes.get? a = some n ∧ n.parent = a ∧
    (t.absorb a b).nodes = t.nodes.set a m ∧ m.parent = a ∧ m.weight = n.weight + t.weight b ∧
      m.facts = n.facts.union (t.factsAt b) := by
  obtain ⟨n, hn, hroot⟩ := node_of_root? ha
  refine ⟨n, { n with
    weight := n.weight + t.weight b
    facts := n.facts.union (t.factsAt b)
    positive := Nat.add_pos_left n.positive _ }, hn, hroot, ?_, hroot, rfl, rfl⟩
  unfold absorb
  split
  · next n' hn' =>
    obtain rfl := Option.some.inj (hn.symm.trans hn')
    rw [dif_pos hroot]
  · next hnone => cases hn.symm.trans hnone

include ha hb hne in
/-- A root below another root. -/
theorem nodes_redirect_absorb : ∃ nb, t.nodes.get? b = some nb ∧ nb.parent = b ∧
    ((t.absorb a b).redirect a b).nodes = (t.absorb a b).nodes.set b { nb with parent := a } := by
  obtain ⟨n, m, -, -, hnodes, -, hweight, -⟩ := nodes_absorb ha b
  obtain ⟨nb, hnb, hroot⟩ := node_of_root? hb
  have hnb' : (t.absorb a b).nodes.get? b = some nb := by
    rw [hnodes, Table.get?_set, if_neg hne, hnb]
  have hm : (t.absorb a b).nodes.get? a = some m := by rw [hnodes, Table.get?_set, if_pos rfl]
  have hlt : nb.weight < m.weight := by
    rw [hweight, weight, hnb, Option.elim_some]
    exact Nat.lt_add_of_pos_left n.positive
  refine ⟨nb, hnb, hroot, ?_⟩
  unfold redirect
  split
  · next n' r hn' hr =>
    obtain rfl := Option.some.inj (hnb'.symm.trans hn')
    obtain rfl := Option.some.inj (hm.symm.trans hr)
    rw [dif_pos hlt]
  · next hnone => exact absurd hm (hnone nb m hnb')

include ha hb hne in
/-- The members of the second class get the root of the first one. -/
theorem root?_join (x : Source) :
    (t.join a b).root? x = (t.root? x).map fun root => if root = b then a else root := by
  obtain ⟨n, m, hn, hna, habsorb, hma, -, -⟩ := nodes_absorb ha b
  obtain ⟨nb, hnb, hroot, hredirect⟩ := nodes_redirect_absorb ha hb hne
  rw [join, root?_modifyFacts]
  have hget (x : Source) (hx : x ≠ b) : ∀ k, t.nodes.get? x = some k →
      ∃ k', ((t.absorb a b).redirect a b).nodes.get? x = some k' ∧ k'.parent = k.parent := by
    intro k hk
    rw [hredirect, Table.get?_set, if_neg hx, habsorb, Table.get?_set]
    split_ifs with hxa
    · subst hxa
      obtain rfl := Option.some.inj (hn.symm.trans hk)
      exact ⟨m, rfl, hma.trans hna.symm⟩
    · exact ⟨k, hk, rfl⟩
  have ha' : ((t.absorb a b).redirect a b).root? a = some a := by
    obtain ⟨k, hk, hparent⟩ := hget a hne.symm n hn
    exact root?_of_root hk (hparent.trans hna)
  have hb' : ((t.absorb a b).redirect a b).root? b = some a := by
    rw [root?_of_link (n := { nb with parent := a })
      (by rw [hredirect, Table.get?_set, if_pos rfl]) hne.symm, ha']
  induction x using climb t with
  | unknown x hx =>
    have hxb : x ≠ b := by
      rintro rfl
      cases hnb.symm.trans hx
    have hxa : x ≠ a := by
      rintro rfl
      cases hn.symm.trans hx
    rw [root?_of_unknown hx, Option.map_none]
    exact root?_of_unknown
      (by rw [hredirect, Table.get?_set, if_neg hxb, habsorb, Table.get?_set, if_neg hxa, hx])
  | root x k hk hx =>
    rw [root?_of_root hk hx, Option.map_some]
    split_ifs with hxb
    · rw [hxb, hb']
    · obtain ⟨k', hk', hparent⟩ := hget x hxb k hk
      exact root?_of_root hk' (hparent.trans hx)
  | link x k hk hlink ih =>
    have hxb : x ≠ b := by
      rintro rfl
      obtain rfl := Option.some.inj (hnb.symm.trans hk)
      exact hlink hroot
    obtain ⟨k', hk', hparent⟩ := hget x hxb k hk
    rw [root?_of_link hk hlink, root?_of_link hk' (hparent ▸ hlink), hparent, ih]

include ha hb hne in
theorem factsAt_join (x : Source) :
    (t.join a b).factsAt x = if x = b then .empty
      else if x = a then (t.factsAt a).union (t.factsAt b) else t.factsAt x := by
  obtain ⟨n, m, hn, -, habsorb, -, -, hm⟩ := nodes_absorb ha b
  obtain ⟨nb, -, -, hredirect⟩ := nodes_redirect_absorb ha hb hne
  have hknown : (((t.absorb a b).redirect a b).root? b).isSome := by
    rw [isSome_root?, hredirect, Table.get?_set, if_pos rfl, Option.isSome_some]
  rw [join, factsAt_modifyFacts hknown]
  split_ifs with hxb hxa
  · rfl
  · have ha : t.factsAt a = n.facts := by rw [factsAt, hn, Option.elim_some]
    rw [factsAt_redirect, ha, factsAt, habsorb, hxa, Table.get?_set, if_pos rfl, Option.elim_some, hm]
  · rw [factsAt_redirect, factsAt, habsorb, Table.get?_set, if_neg hxa]
    rfl

end Join

end FactTable

end ConstRestore
