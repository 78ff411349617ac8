import Marginalia.Proofs.Yaml.OneField

/-!
# Tokens with more text behind them

The scalars, names and tags of the reader are read by looking only a little
ahead.  So one that ends before the end of the text is the same with white space
or nothing behind the text: `Carries`.
-/

namespace Marginalia.Yaml

namespace Source

variable {x : Text}

/-! ## What comes next -/

theorem isGap_cases {c : Char} (hc : isGap c = true) :
    c = ' ' ∨ c = '\t' ∨ c = '\n' ∨ c = '\u2028' ∨ c = '\u2029' := by
  simpa [isGap, isBlank, isBreak, or_assoc] using hc

theorem eq_false_of_isGap {p : Char → Bool}
    (hp : ([' ', '\t', '\n', '\u2028', '\u2029'].any p) = false) {c : Char} (hc : isGap c = true) :
    p c = false := by
  simp only [List.any_cons, List.any_nil, Bool.or_false, Bool.or_eq_false_iff] at hp
  rcases isGap_cases hc with rfl | rfl | rfl | rfl | rfl
  · exact hp.1
  · exact hp.2.1
  · exact hp.2.2.1
  · exact hp.2.2.2.1
  · exact hp.2.2.2.2

theorem ne_of_isGap {c d : Char} (hc : isGap c = true) (hd : isGap d = false) : c ≠ d := by
  rintro rfl
  rw [hc] at hd
  cases hd

theorem takeWhile_append (hx : atGap x = true) {p : Char → Bool}
    (hp : ∀ c, isGap c = true → p c = false) (r : Text) :
    (r ++ x).takeWhile p = r.takeWhile p := by
  induction r with
  | nil =>
      cases x with
      | nil => rfl
      | cons c x => exact List.takeWhile_cons_of_neg (by simp [hp c hx])
  | cons c r ih => rw [List.cons_append, List.takeWhile_cons, List.takeWhile_cons, ih]

/-- A test of the next character that white space and the end answer alike. -/
theorem head?_append (hx : atGap x = true) {p : Char → Bool} {b : Bool}
    (hp : ∀ c, isGap c = true → p c = b) (r : Text) :
    ((r ++ x).head?.map p).getD b = (r.head?.map p).getD b := by
  cases r with
  | nil =>
      cases x with
      | nil => rfl
      | cons c x => exact hp c hx
  | cons c r => rfl

theorem head?_append_eq_some_iff (hx : atGap x = true) {d : Char} (hd : isGap d = false)
    (r : Text) : (r ++ x).head? = some d ↔ r.head? = some d := by
  cases r with
  | nil =>
      cases x with
      | nil => rfl
      | cons c x =>
          have hne : c ≠ d := ne_of_isGap hx hd
          simp [hne]
  | cons c r => rfl

theorem dropWhile_append {p : Char → Bool} {r : Text} (h : r.dropWhile p ≠ []) :
    (r ++ x).dropWhile p = r.dropWhile p ++ x := by
  induction r with
  | nil => exact absurd rfl h
  | cons c r ih =>
      rw [List.cons_append, List.dropWhile_cons, List.dropWhile_cons]
      rw [List.dropWhile_cons] at h
      split
      · next hc =>
          rw [if_pos hc] at h
          exact ih h
      · rfl

theorem takeWhile_append_of_dropWhile {p : Char → Bool} {r : Text} (h : r.dropWhile p ≠ []) :
    (r ++ x).takeWhile p = r.takeWhile p := by
  induction r with
  | nil => exact absurd rfl h
  | cons c r ih =>
      rw [List.cons_append, List.takeWhile_cons, List.takeWhile_cons]
      rw [List.dropWhile_cons] at h
      split
      · next hc =>
          rw [if_pos hc] at h
          rw [ih h]
      · rfl

theorem drop_length_takeWhile (p : Char → Bool) (r : Text) :
    r.drop (r.takeWhile p).length = r.dropWhile p := by
  have hsplit : r.takeWhile p ++ r.dropWhile p = r := List.takeWhile_append_dropWhile
  calc r.drop (r.takeWhile p).length
      = (r.takeWhile p ++ r.dropWhile p).drop (r.takeWhile p).length := by rw [hsplit]
    _ = r.dropWhile p := List.drop_left

theorem drop_append {n : Nat} {r : Text} (h : r.drop n ≠ []) (x : Text) :
    (r ++ x).drop n = r.drop n ++ x := by
  apply List.drop_append_of_le_length
  by_contra hle
  exact h (List.drop_eq_nil_of_le (by omega))

theorem drop_length_takeWhile_append (p : Char → Bool) (r x : Text) :
    (r ++ x).drop (r.takeWhile p).length = r.drop (r.takeWhile p).length ++ x :=
  List.drop_append_of_le_length (List.takeWhile_sublist p).length_le

theorem takeWhile_isNameChar_append (hx : atGap x = true) (r : Text) :
    (r ++ x).takeWhile isNameChar = r.takeWhile isNameChar :=
  takeWhile_append hx (fun _ => eq_false_of_isGap (by decide)) r

theorem lt_length_of_head?_drop {n : Nat} {r : Text} {c : Char} (h : (r.drop n).head? = some c) :
    n < r.length := by
  rw [List.head?_drop] at h
  exact (List.getElem?_eq_some_iff.mp h).1

end Source

open Source (atGap isGap isBlank isBreak)

/-- The cursor with more text behind it. -/
def Cursor.append (c : Cursor) (x : Text) : Cursor :=
  { c with rest := c.rest ++ x }

/-- What one reading gives while text is left, another one gives with more text
behind it. -/
def Carries {α : Type} (left : α → Text) (more : α → α) (short long : Except Error α) : Prop :=
  ∀ a, short = .ok a → left a ≠ [] → long = .ok (more a)

namespace Carries

variable {α : Type} {left : α → Text} {more : α → α} {short long short' long' : Except Error α}

theorem error (e : Error) : Carries left more (.error e) long := by
  intro a ha
  simp at ha

theorem ok {a b : α} (h : left a ≠ [] → b = more a) : Carries left more (.ok a) (.ok b) := by
  intro a' ha hleft
  obtain rfl := Except.ok.inj ha
  rw [h hleft]

theorem ite {p : Prop} [Decidable p] (h : p → Carries left more short long)
    (h' : ¬p → Carries left more short' long') :
    Carries left more (if p then short else short') (if p then long else long') := by
  split
  · next hp => exact h hp
  · next hp => exact h' hp

theorem bind {β : Type} {f g : β → Except Error α} {m m' : Except Error β} {next : β → β}
    (hm : m' = m.map next) (h : ∀ b, m = .ok b → Carries left more (f b) (g (next b))) :
    Carries left more (m >>= f) (m' >>= g) := by
  subst hm
  cases hb : m with
  | error e => exact error e
  | ok b => exact h b hb

theorem bind_eq {β : Type} {f g : β → Except Error α} {m m' : Except Error β} (hm : m' = m)
    (h : ∀ b, m = .ok b → Carries left more (f b) (g b)) :
    Carries left more (m >>= f) (m' >>= g) := by
  subst hm
  cases hb : m' with
  | error e => exact error e
  | ok b => exact h b hb

/-- A reading that comes to its end only where text is left. -/
theorem bind_of_left {β : Type} {left' : β → Text} {next : β → β} {f g : β → Except Error α}
    {m m' : Except Error β} (hm : Carries left' next m m')
    (hleft : ∀ b a, f b = .ok a → left a ≠ [] → left' b ≠ [])
    (h : ∀ b, m = .ok b → Carries left more (f b) (g (next b))) :
    Carries left more (m >>= f) (m' >>= g) := by
  intro a ha hne
  cases hb : m with
  | error e => simp [hb, Bind.bind, Except.bind] at ha
  | ok b =>
      rw [hb] at ha
      have hnext := hm b hb (hleft b a ha hne)
      rw [hnext]
      exact h b hb a ha hne

end Carries

namespace Token

variable {x : Text}

/-! ## Scalars that end before the end -/

theorem plainFrom_append_of_stop (hx : atGap x = true) (flow : Bool) (indent : Nat) (out : Text)
    (gap : Gap) (line column : Nat) (t : Text) :
    Carries (·.stop.rest) (fun p => { p with stop := p.stop.append x })
      (plainFrom flow indent out gap line column t)
      (plainFrom flow indent out gap line column (t ++ x)) := by
  induction t generalizing out gap line column with
  | nil =>
      intro p hp hstop
      obtain rfl := Except.ok.inj hp
      exact absurd rfl hstop
  | cons c r ih =>
      have hmarker : Source.atMarker (c :: (r ++ x)) = Source.atMarker (c :: r) :=
        Source.atMarker_append hx (c :: r)
      have hopens : ∀ d, isGap d = true → (isFlowIndicator d || d == '?') = false := fun _ =>
        Source.eq_false_of_isGap (p := fun d => isFlowIndicator d || d == '?') (by decide)
      rw [List.cons_append, plainFrom, plainFrom, hmarker, Source.atGap_append hx,
        Source.head?_append hx hopens r]
      refine Carries.ite (fun _ => Carries.ite (fun _ => Carries.error _) fun _ => ih _ _ _ _)
        fun _ => ?_
      refine Carries.ite (fun _ => ih _ _ _ _) fun _ => ?_
      refine Carries.ite (fun _ => Carries.ok fun _ => rfl) fun _ => ?_
      refine Carries.ite (fun _ => Carries.ok fun _ => rfl) fun _ => ?_
      refine Carries.ite (fun _ => Carries.ok fun _ => rfl) fun _ => ?_
      refine Carries.ite (fun _ => Carries.error _) fun _ => ?_
      refine Carries.ite (fun _ => Carries.ok fun _ => rfl) fun _ => ?_
      refine Carries.ite (fun _ => Carries.ok fun _ => rfl) fun _ => ?_
      exact ih _ _ _ _

theorem hexEscape?_append {digits : Nat} {r : Text} {c : Char}
    (h : hexEscape? digits r = some c) : hexEscape? digits (r ++ x) = some c := by
  unfold hexEscape? at h ⊢
  split_ifs at h
  next hlength =>
    rw [if_neg (by rw [List.length_append]; omega), List.take_append_of_le_length (by omega)]
    exact h

theorem escape?_append {r : Text} {e : Char × Nat} (h : escape? r = some e) :
    escape? (r ++ x) = some e := by
  unfold escape? at h
  split at h
  all_goals first
    | exact h
    | cases h
    | (obtain ⟨c, hc, rfl⟩ := Option.map_eq_some_iff.mp h
       exact Option.map_eq_some_iff.mpr ⟨c, hexEscape?_append hc, rfl⟩)

theorem quotedFrom_append_of_stop (hx : atGap x = true) (double : Bool) (q : QuotedState)
    (line column : Nat) (t : Text) :
    Carries (·.2.rest) (fun p => (p.1, p.2.append x)) (quotedFrom double q line column t)
      (quotedFrom double q line column (t ++ x)) := by
  induction t generalizing q line column with
  | nil => exact Carries.error _
  | cons c r ih =>
      have hmarker : Source.atMarker (c :: (r ++ x)) = Source.atMarker (c :: r) :=
        Source.atMarker_append hx (c :: r)
      rw [List.cons_append, quotedFrom, quotedFrom, hmarker]
      refine Carries.ite (fun _ => ih _ _ _) fun _ => ?_
      refine Carries.ite (fun _ => Carries.error _) fun _ => ?_
      refine Carries.ite (fun _ => ih _ _ _) fun _ => ?_
      refine Carries.ite (fun _ => ih _ _ _) fun _ => ?_
      refine Carries.ite (fun _ => ?_) fun _ => ?_
      · refine Carries.ite (fun _ => Carries.ok fun _ => rfl) fun _ => ?_
        refine Carries.ite (fun _ => ?_) fun _ => ih _ _ _
        cases r with
        | nil => exact Carries.error _
        | cons d r =>
            refine Carries.ite (fun _ => ih _ _ _) fun _ => ?_
            cases hescape : escape? (d :: r) with
            | none => exact Carries.error _
            | some e =>
                rw [escape?_append hescape]
                exact ih _ _ _
      · refine Carries.ite (fun _ => ?_) fun _ => ih _ _ _
        have hquote := Source.head?_append_eq_some_iff hx (d := '\'') (by decide) r
        simp only [hquote]
        refine Carries.ite (fun _ => ih _ _ _) fun _ => ?_
        exact Carries.ok fun _ => rfl

theorem quoted_append_of_stop (hx : atGap x = true) (double : Bool) {c : Cursor}
    (hc : c.rest ≠ []) :
    Carries (·.2.rest) (fun p => (p.1, p.2.append x)) (quoted double c)
      (quoted double (c.append x)) := by
  obtain ⟨rest, line, column⟩ := c
  obtain ⟨a, r, rfl⟩ := List.exists_cons_of_ne_nil hc
  exact quotedFrom_append_of_stop hx _ _ _ _ _

theorem blockFrom_append_of_stop (folded : Bool) (chomping : Chomping) (least : Nat)
    (s : BlockState) (line column : Nat) (t : Text) :
    Carries (·.2.rest) (fun p => (p.1, p.2.append x))
      (blockFrom folded chomping least s line column t)
      (blockFrom folded chomping least s line column (t ++ x)) := by
  induction t generalizing s line column with
  | nil =>
      intro p hp hstop
      obtain rfl := Except.ok.inj hp
      exact absurd rfl hstop
  | cons c r ih =>
      rw [List.cons_append, blockFrom, blockFrom]
      refine Carries.ite (fun _ => Carries.ite (fun _ => ih _ _ _) fun _ => ih _ _ _) fun _ => ?_
      refine Carries.ite (fun _ => ih _ _ _) fun _ => ?_
      refine Carries.ite (fun _ => Carries.error _) fun _ => ?_
      refine Carries.ite (fun _ => ih _ _ _) fun _ => ?_
      exact Carries.ite (fun _ => ih _ _ _) fun _ => Carries.ok fun _ => rfl

theorem blockHeader_append (hx : atGap x = true) (r : Text) :
    blockHeader (r ++ x) = ((blockHeader r).1, (blockHeader r).2 ++ x) := by
  have hchomping : ∀ c, isGap c = true → chomping? c = none := by
    intro c hc
    rcases Source.isGap_cases hc with rfl | rfl | rfl | rfl | rfl <;> rfl
  have hincrement : ∀ c, isGap c = true → increment? c = none := by
    intro c hc
    rcases Source.isGap_cases hc with rfl | rfl | rfl | rfl | rfl <;> rfl
  cases r with
  | nil =>
      cases x with
      | nil => rfl
      | cons c x =>
          have hc : isGap c = true := hx
          simp [blockHeader, hchomping c hc, hincrement c hc]
  | cons a r =>
      -- the second indicator, if there is one, stands before the end
      cases r with
      | cons d r =>
          rw [List.cons_append, List.cons_append, blockHeader, blockHeader]
          cases chomping? a with
          | some chomping => cases hd : increment? d <;> simp [hd]
          | none =>
              cases increment? a with
              | none => rfl
              | some n => cases hd : chomping? d <;> simp [hd]
      | nil =>
          have hhead : ∀ {α : Type} {f : Char → Option α}, (∀ c, isGap c = true → f c = none) →
              x.head?.bind f = none := by
            intro α f hf
            cases x with
            | nil => rfl
            | cons c x => exact hf c hx
          rw [List.cons_append, List.nil_append, blockHeader, blockHeader, hhead hchomping,
            hhead hincrement]
          cases chomping? a with
          | some chomping => rfl
          | none => cases increment? a <;> rfl

theorem block_append_of_stop (hx : atGap x = true) (folded : Bool) (parent : Option Nat)
    {c : Cursor} (hc : c.rest ≠ []) :
    Carries (·.2.rest) (fun p => (p.1, p.2.append x)) (block folded parent c)
      (block folded parent (c.append x)) := by
  obtain ⟨rest, line, column⟩ := c
  obtain ⟨a, r, rfl⟩ := List.exists_cons_of_ne_nil hc
  simp only [block, Cursor.append, List.cons_append, List.drop_succ_cons, List.drop_zero,
    blockHeader_append hx]
  generalize (blockHeader r).1 = header
  generalize (blockHeader r).2 = behind
  generalize hbody : (behind.dropWhile isBlank).drop _ = body
  cases body with
  | nil =>
      intro p hp hstop
      obtain rfl := Except.ok.inj hp
      exact absurd rfl hstop
  | cons b body =>
      have htext : behind.dropWhile isBlank ≠ [] := by
        intro hnil
        simp [hnil] at hbody
      rw [Source.dropWhile_append htext]
      generalize behind.dropWhile isBlank = text at hbody htext ⊢
      have hcomment :
          (if (text ++ x).head? = some '#' then (text ++ x).takeWhile (!isBreak ·) else []) =
            if text.head? = some '#' then text.takeWhile (!isBreak ·) else [] := by
        rw [List.head?_append_of_ne_nil _ htext]
        split
        · next hhead =>
            apply Source.takeWhile_append_of_dropWhile
            rw [if_pos hhead, Source.drop_length_takeWhile] at hbody
            simp [hbody]
        · rfl
      have hlong := Source.drop_append (n := (if text.head? = some '#' then
        text.takeWhile (!isBreak ·) else []).length) (by rw [hbody]; simp) x
      rw [hcomment, hlong, hbody, List.cons_append]
      refine Carries.ite (fun _ => ?_) fun _ => Carries.error _
      exact blockFrom_append_of_stop _ _ _ _ _ _ _

/-! ## Names and tags -/

theorem anchorName_append (hx : atGap x = true) (r : Text) :
    anchorName (r ++ x) = anchorName r := by
  have hended := Source.head?_append hx (p := endsAnchor) (b := true)
    (fun c hc => by simp [endsAnchor, hc]) (r.drop (r.takeWhile Source.isNameChar).length)
  simp only [anchorName, Source.takeWhile_isNameChar_append hx,
    Source.drop_length_takeWhile_append, hended]

theorem isTagChar_of_isGap {verbatim : Bool} {c : Char} (hc : isGap c = true) :
    isTagChar verbatim c = false := by
  cases verbatim
  · exact Source.eq_false_of_isGap (by decide) hc
  · exact Source.eq_false_of_isGap (by decide) hc

theorem tagText_append (hx : atGap x = true) (verbatim : Bool) (r : Text) :
    tagText verbatim (r ++ x) = tagText verbatim r := by
  rw [tagText, tagText, Source.takeWhile_append hx fun _ => isTagChar_of_isGap]

theorem tagHandle_append (hx : atGap x = true) (c : Char) (r : Text) :
    tagHandle (c :: r ++ x) = tagHandle (c :: r) := by
  have hmark := Source.head?_append_eq_some_iff hx (d := '!') (by decide)
    (r.drop (r.takeWhile Source.isNameChar).length)
  simp only [tagHandle, List.cons_append, List.drop_succ_cons, List.drop_zero,
    Source.takeWhile_isNameChar_append hx, Nat.add_comm 1, Source.drop_length_takeWhile_append,
    hmark]

theorem length_tagHandle_le (c : Char) (r : Text) : (tagHandle (c :: r)).length ≤ r.length + 1 := by
  have hname : (r.takeWhile Source.isNameChar).length ≤ r.length :=
    (List.takeWhile_sublist _).length_le
  simp only [tagHandle, List.drop_succ_cons, List.drop_zero]
  split
  · next hmark =>
      have hlt := Source.lt_length_of_head?_drop hmark
      simp only [List.length_cons, List.length_append, List.length_nil] at hlt ⊢
      omega
  · simp only [List.length_cons]
    omega

theorem length_tagText_le (verbatim : Bool) (t : Text) :
    Ensures (fun p => p.1.length ≤ t.length) (tagText verbatim t) := by
  unfold tagText
  dsimp only
  split
  · exact Ensures.ok (List.takeWhile_sublist _).length_le
  · exact Ensures.error _

theorem endsTag_append (hx : atGap x = true) (flow : Bool) {n : Nat} {r : Text}
    (hn : n ≤ r.length) :
    (flow && ((r ++ x).drop n).head? == some ',' || atGap ((r ++ x).drop n)) =
      (flow && (r.drop n).head? == some ',' || atGap (r.drop n)) := by
  have hcomma : ((r.drop n ++ x).head? == some ',') = ((r.drop n).head? == some ',') := by
    rw [Bool.eq_iff_iff, beq_iff_eq, beq_iff_eq]
    exact Source.head?_append_eq_some_iff hx (by decide) (r.drop n)
  rw [List.drop_append_of_le_length hn, hcomma, Source.atGap_append hx]

theorem tagAt_append (hx : atGap x = true) (flow : Bool) (c : Char) (r : Text) :
    tagAt flow (c :: r ++ x) = tagAt flow (c :: r) := by
  have hdrop : ∀ n ≤ (c :: r).length, (c :: r ++ x).drop n = (c :: r).drop n ++ x :=
    fun n hn => List.drop_append_of_le_length hn
  have hmark : ∀ (d : Char) (t : Text), isGap d = false →
      ((t ++ x).head? = some d) = (t.head? = some d) :=
    fun d t hd => propext (Source.head?_append_eq_some_iff hx hd t)
  have hhandle := length_tagHandle_le c r
  have hangle := hdrop 1 (by simp)
  simp only [tagAt, bind, Except.bind, pure, Except.pure, tagHandle_append hx]
  rw [hangle]
  simp only [hmark '<' _ (by decide)]
  split
  · next hopen =>
      have htwo : 2 ≤ (c :: r).length := Source.lt_length_of_head?_drop hopen
      rw [hdrop 2 htwo, tagText_append hx]
      cases htext : tagText true ((c :: r).drop 2) with
      | error e => rfl
      | ok p =>
          have hlength := length_tagText_le true ((c :: r).drop 2) p htext
          rw [List.length_drop] at hlength
          dsimp only
          rw [hdrop (2 + p.1.length) (by omega)]
          simp only [ne_eq, hmark '>' _ (by decide)]
          split
          · rfl
          · next hclose =>
              obtain ⟨-, hbehind⟩ : p.1.isEmpty = false ∧
                  ((c :: r).drop (2 + p.1.length)).head? = some '>' := by simpa using hclose
              have hthree := Source.lt_length_of_head?_drop hbehind
              rw [endsTag_append hx flow (show 3 + p.1.length ≤ (c :: r).length by omega)]
  · have htext : tagText false ((c :: r ++ x).drop (tagHandle (c :: r)).length) =
        tagText false ((c :: r).drop (tagHandle (c :: r)).length) := by
      rw [hdrop _ hhandle, tagText_append hx]
    simp only [htext]
    cases hwritten : tagText false ((c :: r).drop (tagHandle (c :: r)).length) with
    | error e => rfl
    | ok p =>
        have hlength := length_tagText_le false _ p hwritten
        rw [List.length_drop] at hlength
        have hle : (tagHandle (c :: r)).length + p.1.length ≤ (c :: r).length := by
          rw [List.length_cons] at hlength ⊢
          omega
        simp only [endsTag_append hx flow hle]

end Token

end Marginalia.Yaml
