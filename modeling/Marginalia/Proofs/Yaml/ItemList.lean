import Marginalia.Proofs.Yaml.Items

/-!
# Lists that are read back

The items of a list below one another are read as a sequence: one of its own
when they stand deeper than the key above them, and one without an indentation
of its own when they do not.  A list without items is written in flow style.
-/

namespace Marginalia.Yaml

open Source (isGap hang)

/-! ## Tokens -/

def itemLines (rs : List ReadItem) : List Text :=
  rs.flatMap ReadItem.lines

theorem itemLines_ne_nil {rs : List ReadItem} (h : rs ≠ []) : itemLines rs ≠ [] := by
  obtain ⟨r, rs, rfl⟩ := List.exists_cons_of_ne_nil h
  obtain ⟨l, ls, hlines⟩ := r.begins
  simp [itemLines, hlines]

def itemTokens (rs : List ReadItem) : List Token :=
  rs.flatMap fun r => .blockEntry :: r.tokens

/-- The tokens of a list whose items stand deeper than its key, or not. -/
def listTokens (deeper : Bool) (rs : List ReadItem) : List Token :=
  if deeper then .blockSequenceStart :: (itemTokens rs ++ [.blockEnd]) else itemTokens rs

namespace Scan

variable {i width : Nat} {is : List Nat} {tail : Text}

theorem hang_itemLines_cons (width : Nat) (r : ReadItem) (rs : List ReadItem) (tail : Text) :
    ∃ x, hang width (itemLines (r :: rs)) tail =
      '\n' :: (List.replicate width ' ' ++ '-' :: ' ' :: x) := by
  obtain ⟨l, ls, hlines⟩ := r.begins
  refine ⟨l ++ hang width (ls ++ itemLines rs) tail, ?_⟩
  rw [itemLines, List.flatMap_cons, hlines]
  rfl

/-- Before the next item, too, the text goes no deeper than the items. -/
theorem follows_itemLines (rs : List ReadItem) (htail : Follows width tail) :
    Follows width (hang width (itemLines rs) tail) := by
  cases rs with
  | nil => exact htail
  | cons r rs =>
      obtain ⟨x, hx⟩ := hang_itemLines_cons width r rs tail
      rw [hx]
      exact follows_indented (by decide) (by decide) (fun _ => by decide) _

theorem exists_finish_items (rs : List ReadItem) (htail : Follows width tail) (line column : Nat)
    (allowed : Bool) (before : List Token) :
    ∃ line' column',
      (inBlock ⟨hang width (itemLines rs) tail, line, column⟩ (width :: is) allowed before).finish =
        (inBlock ⟨tail, line', column'⟩ (width :: is) (allowed && rs.isEmpty)
          ((itemTokens rs).reverse ++ before)).finish := by
  induction rs generalizing line column allowed before with
  | nil =>
      rw [List.isEmpty_nil, Bool.and_true]
      exact ⟨line, column, rfl⟩
  | cons r rs ih =>
      have hlines : hang width (itemLines (r :: rs)) tail =
          hang width r.lines (hang width (itemLines rs) tail) := by
        rw [← Source.hang_append]
        rfl
      obtain ⟨line₁, column₁, hitem⟩ := r.taken width is allowed _ line column before
        (follows_itemLines rs htail)
      obtain ⟨line', column', hrest⟩ := ih line₁ column₁ false
        (r.tokens.reverse ++ .blockEntry :: before)
      refine ⟨line', column', ?_⟩
      rw [hlines, hitem, hrest]
      simp [itemTokens]

theorem exists_finish_list {rs : List ReadItem} (hne : rs ≠ []) (hi : i ≤ width)
    (htail : Follows i tail) (line column : Nat) (allowed : Bool) (before : List Token) :
    ∃ line' column',
      (inBlock ⟨hang width (itemLines rs) tail, line, column⟩ (i :: is) allowed before).finish =
        (inBlock ⟨tail, line', column'⟩ (i :: is) false
          ((listTokens (decide (i < width)) rs).reverse ++ before)).finish := by
  have hitems := htail.mono hi
  have hempty : rs.isEmpty = false := by simpa using hne
  rcases Nat.eq_or_lt_of_le hi with rfl | hlt
  · have hsame : listTokens (decide (i < i)) rs = itemTokens rs := by simp [listTokens]
    have hrest := @exists_finish_items i is tail rs hitems line column allowed before
    rwa [hempty, Bool.and_false, ← hsame] at hrest
  · obtain ⟨line', column', hrest⟩ := @exists_finish_items width (i :: is) tail rs hitems line
      column allowed (.blockSequenceStart :: before)
    rw [hempty, Bool.and_false] at hrest
    obtain ⟨r, rs, rfl⟩ := List.exists_cons_of_ne_nil hne
    obtain ⟨x, hx⟩ := hang_itemLines_cons width r rs tail
    refine ⟨line', column', ?_⟩
    rw [hx] at hrest ⊢
    rw [finish_dash_of_lt hlt, hrest, finish_inBlock_close]
    · simp [listTokens, hlt]
    · -- what follows is not as deep as the items
      exact (htail.shallow line' column').imp_right fun h => Nat.lt_of_le_of_lt h.2 hlt

end Scan

/-! ## Nodes -/

namespace Node

def itemsSize : List ReadItem → Nat
  | [] => 0
  | r :: rs => r.size + itemsSize rs

section Steps

variable {n : Node} {size fuel : Nat} {ts rest : List Token} {r : Reader}
  (hitem : IsItem n size ts) (hfuel : 3 * ts.length + 1 ≤ fuel)
  (hr : r.tokens = .blockEntry :: (ts ++ rest))

include hitem hfuel hr

theorem run_readBlockItems_cons {ns : List Node} {r' : Reader}
    (hrest : (readBlockItems fuel).run { r with tokens := rest, events := r.events + size } =
      .ok (ns, r')) :
    (readBlockItems (fuel + 1)).run r = .ok (n :: ns, r') := by
  obtain ⟨hentry, hends⟩ := hitem.opens rest
  have hread := hitem.run_read fuel { r with tokens := ts ++ rest } rest hfuel rfl
  have hskip : Read.skip.run r = .ok ((), { r with tokens := ts ++ rest }) := by
    rw [run_skip, hr]
    rfl
  rw [readBlockItems, run_bind_of_eq_ok (run_peek r), hr]
  dsimp only [List.head?_cons]
  rw [run_bind_of_eq_ok hskip, run_bind_of_eq_ok (run_peek _)]
  split
  · next hhead => exact absurd hhead hentry
  · next hhead =>
      rw [hhead] at hends
      cases hends
  · rw [run_bind_of_eq_ok hread, run_bind_of_eq_ok hrest]
    rfl

theorem run_readIndentlessItems_cons {ns : List Node} {r' : Reader}
    (hrest : (readIndentlessItems fuel).run
      { r with tokens := rest, events := r.events + size } = .ok (ns, r')) :
    (readIndentlessItems (fuel + 1)).run r = .ok (n :: ns, r') := by
  obtain ⟨hentry, hends⟩ := hitem.opens rest
  have hread := hitem.run_read fuel { r with tokens := ts ++ rest } rest hfuel rfl
  have hskip : Read.skip.run r = .ok ((), { r with tokens := ts ++ rest }) := by
    rw [run_skip, hr]
    rfl
  have hnext : ((ts ++ rest).head? = some Token.blockEntry || endsBlockEntry (ts ++ rest).head?) =
      false := by
    rw [hends, Bool.or_false]
    simpa using hentry
  rw [readIndentlessItems, run_bind_of_eq_ok (run_peek r), hr]
  dsimp only [List.head?_cons]
  rw [run_bind_of_eq_ok hskip, run_bind_of_eq_ok (run_peek _)]
  dsimp only
  rw [hnext, if_neg (by decide), run_bind_of_eq_ok hread, run_bind_of_eq_ok hrest]
  rfl

end Steps

section Lists

variable {rest : List Token}

theorem length_itemTokens_cons (x : ReadItem) (rs : List ReadItem) :
    (itemTokens (x :: rs)).length = x.tokens.length + 1 + (itemTokens rs).length := by
  simp only [itemTokens, List.flatMap_cons, List.length_append, List.length_cons]

theorem run_readBlockItems (rs : List ReadItem) (fuel : Nat) (r : Reader)
    (hfuel : 3 * (itemTokens rs).length + 1 ≤ fuel)
    (hr : r.tokens = itemTokens rs ++ .blockEnd :: rest) :
    (readBlockItems fuel).run r = .ok (rs.map ReadItem.node,
      { r with tokens := rest, events := r.events + itemsSize rs }) := by
  induction rs generalizing fuel r with
  | nil =>
      obtain ⟨fuel, rfl⟩ : ∃ n, fuel = n + 1 := Nat.exists_eq_add_of_le' hfuel
      obtain ⟨_, anchors, handles, events⟩ := r
      obtain rfl := hr
      rw [readBlockItems]
      rfl
  | cons x rs ih =>
      have hlength := length_itemTokens_cons x rs
      obtain ⟨fuel, rfl⟩ : ∃ n, fuel = n + 1 := Nat.exists_eq_add_of_le' (by omega)
      have htokens : r.tokens =
          .blockEntry :: (x.tokens ++ (itemTokens rs ++ .blockEnd :: rest)) := by
        rw [hr]
        simp [itemTokens]
      refine run_readBlockItems_cons x.isItem (by omega) htokens ?_
      rw [ih fuel _ (by omega) rfl]
      simp [itemsSize, Nat.add_assoc]

theorem run_readIndentlessItems (rs : List ReadItem) (fuel : Nat) (r : Reader)
    (hpos : 0 < fuel) (hfuel : 3 * (itemTokens rs).length ≤ fuel)
    (hr : r.tokens = itemTokens rs ++ rest) (hrest : rest.head? ≠ some .blockEntry) :
    (readIndentlessItems fuel).run r = .ok (rs.map ReadItem.node,
      { r with tokens := rest, events := r.events + itemsSize rs }) := by
  induction rs generalizing fuel r with
  | nil =>
      obtain ⟨fuel, rfl⟩ : ∃ n, fuel = n + 1 := Nat.exists_eq_add_of_le' hpos
      obtain ⟨_, anchors, handles, events⟩ := r
      obtain rfl := hr
      rw [readIndentlessItems, run_bind_of_eq_ok (run_peek _)]
      dsimp only [itemTokens, List.flatMap_nil, List.nil_append]
      split
      · next hhead => exact absurd hhead hrest
      · rfl
  | cons x rs ih =>
      have hlength := length_itemTokens_cons x rs
      obtain ⟨fuel, rfl⟩ : ∃ n, fuel = n + 1 := Nat.exists_eq_add_of_le' (by omega)
      have htokens : r.tokens = .blockEntry :: (x.tokens ++ (itemTokens rs ++ rest)) := by
        rw [hr]
        simp [itemTokens]
      refine run_readIndentlessItems_cons x.isItem (by omega) htokens ?_
      rw [ih fuel _ (by omega) (by omega) rfl]
      simp [itemsSize, Nat.add_assoc]

def listNode (rs : List ReadItem) : Node :=
  .sequence ⟨none, none⟩ (rs.map ReadItem.node)

theorem run_blockNode_of_not_ends {fuel : Nat} {r : Reader}
    (h : endsBlockEntry r.tokens.head? = false) :
    (blockNode fuel).run r = (read true true fuel).run r := by
  rw [blockNode, run_bind_of_eq_ok (run_peek r), h]
  rfl

theorem run_read_sequence {fuel : Nat} {tokens : List Token} {r : Reader}
    (hr : r.tokens = .blockSequenceStart :: tokens) :
    (read true true (fuel + 1)).run r =
      (readBlockItems fuel).run { r with tokens := tokens, events := r.events + 2 } >>= fun p =>
        .ok (.sequence ⟨none, none⟩ p.1, p.2) := by
  obtain ⟨_, anchors, handles, events⟩ := r
  obtain rfl := hr
  unfold read
  rfl

theorem run_read_indentless {fuel : Nat} {tokens : List Token} {r : Reader}
    (hr : r.tokens = .blockEntry :: tokens) :
    (read true true (fuel + 1)).run r =
      (readIndentlessItems fuel).run { r with events := r.events + 2 } >>= fun p =>
        .ok (.sequence ⟨none, none⟩ p.1, p.2) := by
  obtain ⟨_, anchors, handles, events⟩ := r
  obtain rfl := hr
  unfold read
  rfl

theorem isValue_list {rs : List ReadItem} (hne : rs ≠ []) (deeper : Bool)
    (hrest : endsBlockEntry rest.head? = true) :
    IsValue (listNode rs) (2 + itemsSize rs) (listTokens deeper rs) rest := by
  intro fuel r hfuel hr
  obtain ⟨x, rs, rfl⟩ := List.exists_cons_of_ne_nil hne
  obtain ⟨fuel, rfl⟩ : ∃ n, fuel = n + 1 := Nat.exists_eq_add_of_le' (by omega)
  cases deeper with
  | true =>
      have htokens : r.tokens = .blockSequenceStart :: (itemTokens (x :: rs) ++
          .blockEnd :: rest) := by
        rw [hr]
        simp [listTokens]
      have hlength : (listTokens true (x :: rs)).length = (itemTokens (x :: rs)).length + 2 := by
        simp [listTokens]
      rw [run_blockNode_of_not_ends (by rw [htokens]; rfl), run_read_sequence htokens,
        run_readBlockItems (x :: rs) fuel _ (by omega) rfl]
      simp [listNode, bind, Except.bind, Nat.add_assoc]
  | false =>
      have hhead : rest.head? ≠ some .blockEntry := by
        intro h
        rw [h] at hrest
        cases hrest
      have hsame : listTokens false (x :: rs) = itemTokens (x :: rs) := rfl
      have htokens : r.tokens = .blockEntry :: (x.tokens ++ (itemTokens rs ++ rest)) := by
        rw [hr, hsame]
        simp [itemTokens]
      have hlength := length_itemTokens_cons x rs
      rw [hsame] at hfuel hr
      rw [run_blockNode_of_not_ends (by rw [htokens]; rfl), run_read_indentless htokens,
        run_readIndentlessItems (x :: rs) fuel { r with events := r.events + 2 } (by omega)
          (by omega) hr hhead]
      simp [listNode, bind, Except.bind, Nat.add_assoc]

theorem anchored_listNode (rs : List ReadItem) : (listNode rs).anchored = [] := by
  have hitems : anchoredItems (rs.map ReadItem.node) = [] := by
    induction rs with
    | nil => simp [anchoredItems]
    | cons x rs ih => simp [anchoredItems, x.anchored, ih]
  simp [listNode, anchored, hitems]

end Lists

end Node

/-! ## Values -/

namespace Value

theorem ofNode_sequence (a : Anchors) (left : Nat) (items : List Node) :
    ofNode a (left + 1) false (.sequence ⟨none, none⟩ items) =
      items.mapM (ofNode a left false) >>= fun values => pure (seq values) := by
  unfold ofNode
  rfl

theorem run_mapM_items {rs : List ReadItem} {levels : Nat}
    (h : ∀ r ∈ rs, Means r.node levels r.value) (a : Anchors) {left : Nat} (hleft : levels ≤ left)
    (k : Nat) :
    ((rs.map ReadItem.node).mapM (ofNode a left false)).run k =
      .ok (rs.map ReadItem.value, k) := by
  induction rs with
  | nil => rfl
  | cons x rs ih =>
      have hvalue := h x (List.mem_cons_self ..) a left k hleft
      have hrest := ih fun r hr => h r (List.mem_cons_of_mem x hr)
      exact run_mapM_cons_eq_ok_iff.mpr ⟨_, k, _, hvalue, hrest, rfl⟩

theorem means_listNode {rs : List ReadItem} {levels : Nat}
    (h : ∀ r ∈ rs, Means r.node levels r.value) :
    Means (Node.listNode rs) (levels + 1) (seq (rs.map ReadItem.value)) := by
  intro a left k hleft
  obtain ⟨left, rfl⟩ : ∃ n, left = n + 1 := Nat.exists_eq_add_of_le' (by omega)
  have hitems := run_mapM_items h a (Nat.le_of_succ_le_succ hleft) k
  rw [Node.listNode, ofNode_sequence, StateT.run_bind, hitems]
  rfl

end Value

/-! ## Lists of items -/

theorem exists_readItems {items : List ListItem} (h : ∀ item ∈ items, item.Returns) :
    ∃ rs : List ReadItem, itemLines rs = items.flatMap ListItem.render ∧
      rs.map ReadItem.value = items.map ListItem.value := by
  induction items with
  | nil => exact ⟨[], rfl, rfl⟩
  | cons item items ih =>
      obtain ⟨r, hlines, hvalue⟩ := (h item (List.mem_cons_self ..)).exists_readItem
      obtain ⟨rs, hrest, hvalues⟩ := ih fun i hi => h i (List.mem_cons_of_mem _ hi)
      refine ⟨r :: rs, ?_, ?_⟩
      · rw [List.flatMap_cons, ← hrest, ← hlines]
        rfl
      · rw [List.map_cons, List.map_cons, hvalue, hvalues]

theorem Value.filterMap_listItem? {items : List ListItem} (h : ∀ item ∈ items, item.Returns) :
    (items.map ListItem.value).filterMap Value.listItem? = items := by
  induction items with
  | nil => rfl
  | cons item items ih =>
      have hitem := (h item (List.mem_cons_self ..)).listItem?_value
      rw [List.map_cons, List.filterMap_cons_some hitem,
        ih fun i hi => h i (List.mem_cons_of_mem _ hi)]

end Marginalia.Yaml
