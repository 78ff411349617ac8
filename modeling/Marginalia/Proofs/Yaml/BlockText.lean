import Marginalia.Proofs.Text.OneLine
import Marginalia.Proofs.Text.Splices
import Marginalia.Proofs.Yaml.EntryList
import Marginalia.Proofs.Yaml.Patch
import Marginalia.Proofs.Yaml.Surroundings

/-!
# The text with another block

A patch that writes a block rewrites the line of the key and the lines of the
body.  So the text afterwards is what stood above the key, the new key line, the
lines down to the body, the new lines and what stood beneath the body.  As they
are read the new lines hang below a line feed.
-/

namespace Marginalia.Yaml

namespace Source

/-- Up to a line feed a text is read by itself. -/
theorem exists_withLineFeeds_lineFeed (t : Text) :
    ∃ x, ∀ z, withLineFeeds (t ++ '\n' :: z) = x ++ '\n' :: withLineFeeds z := by
  induction t using withLineFeeds.induct with
  | case1 t ih =>
      obtain ⟨x, hx⟩ := ih
      exact ⟨'\n' :: x, fun z => congrArg ('\n' :: ·) (hx z)⟩
  | case2 t hne ih =>
      cases t with
      | nil => exact ⟨[], fun z => rfl⟩
      | cons c t =>
          obtain ⟨x, hx⟩ := ih
          refine ⟨'\n' :: x, fun z => ?_⟩
          have hreturn : withLineFeeds ('\r' :: (c :: t ++ '\n' :: z)) =
              '\n' :: withLineFeeds (c :: t ++ '\n' :: z) := by
            rw [withLineFeeds]
            intro r hr
            obtain ⟨rfl, -⟩ := List.cons.inj hr
            exact hne t rfl
          rw [List.cons_append, hreturn, hx, List.cons_append]
  | case3 t ih =>
      obtain ⟨x, hx⟩ := ih
      exact ⟨'\n' :: x, fun z => congrArg ('\n' :: ·) (hx z)⟩
  | case4 c t hpair hreturn hnext ih =>
      obtain ⟨x, hx⟩ := ih
      refine ⟨c :: x, fun z => ?_⟩
      rw [List.cons_append, withLineFeeds_cons hreturn hnext, hx, List.cons_append]
  | case5 => exact ⟨[], fun z => rfl⟩

theorem withLineFeeds_append_of_isInline {t : Text} (ht : ∀ c ∈ t, isInline c = true) (x : Text) :
    withLineFeeds (t ++ x) = t ++ withLineFeeds x := by
  refine withLineFeeds_append_of_ne (fun c hc => ?_) x
  have hinline := ht c hc
  simp only [isInline, Bool.and_eq_true, Bool.not_eq_true', Bool.or_eq_false_iff,
    beq_eq_false_iff_ne] at hinline
  exact ⟨hinline.2.1.2, hinline.2.2⟩

end Source

namespace Patch

open Source (hang isInline withLineFeeds)

/-! ## Lines that are written -/

variable {width : Nat} {ls : List Text} {ending : Text}

theorem isInline_padded {l : Text} (hl : ∀ c ∈ l, isInline c = true) :
    ∀ c ∈ List.replicate width ' ' ++ l, isInline c = true := by
  intro c hc
  rcases List.mem_append.mp hc with hc | hc
  · rw [List.eq_of_mem_replicate hc]
    decide
  · exact hl c hc

theorem withLineFeeds_line (hending : ending = ['\n'] ∨ ending = ['\r', '\n']) {l : Text}
    (hl : ∀ c ∈ l, isInline c = true) (x : Text) :
    withLineFeeds (List.replicate width ' ' ++ l ++ (ending ++ x)) =
      List.replicate width ' ' ++ (l ++ '\n' :: withLineFeeds x) := by
  rw [Source.withLineFeeds_append_of_isInline (isInline_padded hl), List.append_assoc]
  rcases hending with rfl | rfl <;> rfl

theorem withLineFeeds_flatMap (hending : ending = ['\n'] ∨ ending = ['\r', '\n'])
    (hls : ∀ l ∈ ls, ∀ c ∈ l, isInline c = true) (x : Text) :
    '\n' :: withLineFeeds ((ls.map (List.replicate width ' ' ++ ·)).flatMap (· ++ ending) ++ x) =
      hang width ls ('\n' :: withLineFeeds x) := by
  induction ls with
  | nil => rfl
  | cons l ls ih =>
      have hl := hls l (List.mem_cons_self ..)
      rw [Source.hang_cons, ← ih fun l hl => hls l (List.mem_cons_of_mem _ hl), List.map_cons,
        List.flatMap_cons, List.append_assoc, List.append_assoc, withLineFeeds_line hending hl]

/-- Lines of which the last one is left open, as they are read. -/
theorem withLineFeeds_joinWith (hending : ending = ['\n'] ∨ ending = ['\r', '\n']) (hne : ls ≠ [])
    (hls : ∀ l ∈ ls, ∀ c ∈ l, isInline c = true) :
    '\n' :: withLineFeeds (Text.joinWith ending (ls.map (List.replicate width ' ' ++ ·))) =
      hang width ls [] := by
  induction ls with
  | nil => exact absurd rfl hne
  | cons l ls ih =>
      have hl := hls l (List.mem_cons_self ..)
      cases ls with
      | nil =>
          have hline : withLineFeeds (List.replicate width ' ' ++ l ++ []) =
              List.replicate width ' ' ++ l ++ [] :=
            Source.withLineFeeds_append_of_isInline (isInline_padded hl) []
          rw [List.append_assoc, List.append_nil] at hline
          rw [List.map_cons, List.map_nil, Text.joinWith, hline, Source.hang_cons]
          simp [hang]
      | cons l' ls =>
          have hmore := ih (List.cons_ne_nil l' ls) fun l hl => hls l (List.mem_cons_of_mem _ hl)
          rw [Source.hang_cons, ← hmore, List.map_cons, List.map_cons,
            Text.joinWith.eq_3 _ _ _ (by simp), List.append_assoc, withLineFeeds_line hending hl]

theorem isAllowed_of_mem_block (hending : ending = ['\n'] ∨ ending = ['\r', '\n'])
    (hls : ∀ l ∈ ls, ∀ c ∈ l, isInline c = true) (open_ : Bool) :
    ∀ c ∈ block width ending open_ ls, Source.isAllowed c = true := by
  have hend : ∀ c ∈ ending, Source.isAllowed c = true := by
    rcases hending with rfl | rfl <;> exact List.all_eq_true.mp rfl
  have hpadded : ∀ l ∈ ls.map (List.replicate width ' ' ++ ·), ∀ c ∈ l,
      Source.isAllowed c = true := by
    intro l hl c hc
    obtain ⟨content, hcontent, rfl⟩ := List.mem_map.mp hl
    rcases List.mem_append.mp hc with hc | hc
    · rw [List.eq_of_mem_replicate hc]
      decide
    · exact Source.isAllowed_of_isInline (hls content hcontent c hc)
  generalize hlines : ls.map (List.replicate width ' ' ++ ·) = lines at hpadded
  intro c hc
  rw [block, hlines] at hc
  split at hc
  · clear hlines
    induction lines using Text.joinWith.induct with
    | case1 => cases hc
    | case2 l => exact hpadded l (List.mem_cons_self ..) c hc
    | case3 l lines hne ih =>
        rw [Text.joinWith.eq_3 _ _ _ hne, List.mem_append, List.mem_append] at hc
        rcases hc with (hc | hc) | hc
        · exact hpadded l (List.mem_cons_self ..) c hc
        · exact hend c hc
        · exact ih (fun l hl => hpadded l (List.mem_cons_of_mem _ hl)) hc
  · obtain ⟨l, hl, hc⟩ := List.mem_flatMap.mp hc
    rcases List.mem_append.mp hc with hc | hc
    · exact hpadded l hl c hc
    · exact hend c hc

/-! ## The text afterwards -/

variable {t : Text} {index : Nat} {l : OutlineLine}

theorem apply_lines (t : Text) (start stop : Nat) (insert : Text) :
    (⟨⟨t.lineOffset start, t.lineOffset stop⟩, insert⟩ : Edit).apply t =
      Text.joinLines (t.lines.take start) ++ (insert ++ Text.joinLines (t.lines.drop stop)) := by
  rw [Edit.apply, List.append_assoc]
  exact congrArg₂ (fun a b => a ++ (insert ++ b)) (Text.before_lineOffset t start)
    (Text.after_lineOffset t stop)

theorem IsBodyText.isAllowed {body : Body} {rendered : List Text} {text : Text}
    (h : IsBodyText t l body rendered text)
    (hrendered : ∀ l ∈ rendered, ∀ c ∈ l, isInline c = true) :
    ∀ c ∈ text, Source.isAllowed c = true := by
  cases h with
  | none h => simp
  | below h hkey hlast =>
      intro c hc
      rcases List.mem_append.mp hc with hc | hc
      · rw [List.mem_singleton.mp hc]
        decide
      · exact isAllowed_of_mem_block (Or.inl rfl) hrendered true c hc
  | block h hkey open_ hlast =>
      exact isAllowed_of_mem_block (orLf_toText l.line.terminator) hrendered open_

theorem exists_isBodyText (hline : (Outline.ofText t)[index]? = some l) {stop : Nat}
    {kind : BodyKind} {body : Body} (hbody : (Outline.ofText t).body index stop kind = body)
    (rendered : List Text) :
    ∃ text, IsBodyText t l body rendered text ∧
      (bodyEdits (Outline.ofText t) l body rendered).foldr Edit.apply t =
        Text.joinLines (t.lines.take body.lines.start) ++
          (text ++ Text.joinLines (t.lines.drop body.lines.stop)) := by
  obtain ⟨text, htext, ⟨hempty, hrendered, hedits⟩ | ⟨hempty, -, -, hedits⟩ | ⟨-, hedits⟩⟩ :=
    bodyEdits_cases hline hbody rendered
  · refine ⟨[], .none hrendered, ?_⟩
    simp [hedits, hempty, Text.joinLines_take_append_drop]
  · refine ⟨text, htext, ?_⟩
    simpa [hedits, hempty] using apply_lines t (index + 1) (index + 1) text
  · refine ⟨text, htext, ?_⟩
    simpa [hedits] using apply_lines t body.lines.start body.lines.stop text

/-- What stands between the content of the key line and the body. -/
def aboveBody (t : Text) (index : Nat) (key : Line) (body : Body) : Text :=
  key.terminator.toText ++ Text.joinLines ((t.lines.take body.lines.start).drop (index + 1))

def beneathBody (t : Text) (body : Body) : Text :=
  Text.joinLines (t.lines.drop body.lines.stop)

theorem lt_start_of_body {o : Outline} {stop : Nat} {kind : BodyKind} {body : Body}
    (hbody : o.body index stop kind = body) : index < body.lines.start := by
  rcases Outline.body_cases o index stop kind with hempty | ⟨hstart, -⟩
  · rw [hbody] at hempty
    rw [hempty]
    exact Nat.lt_succ_self index
  · rwa [hbody] at hstart

theorem joinLines_take_start {line : Line} (hline : t.lines[index]? = some line) {body : Body}
    (hstart : index < body.lines.start) :
    Text.joinLines (t.lines.take body.lines.start) =
      Text.joinLines (t.lines.take index) ++ (line.content ++ aboveBody t index line body) := by
  have hsplit := List.take_append_drop (index + 1) (t.lines.take body.lines.start)
  rw [List.take_take, Nat.min_eq_left hstart, Text.take_succ_lines hline] at hsplit
  have hjoin := congrArg Text.joinLines hsplit
  simp only [Text.joinLines_append, Text.joinLines_singleton, Line.raw, List.append_assoc] at hjoin
  exact hjoin.symm

theorem mem_of_mem_around {line : Line} (hline : t.lines[index]? = some line) {body : Body}
    (hstart : index < body.lines.start) {c : Char}
    (hc : c ∈ aboveBody t index line body ∨ c ∈ beneathBody t body) : c ∈ t := by
  rcases hc with hc | hc
  · rw [← Text.joinLines_take_append_drop t body.lines.start, joinLines_take_start hline hstart]
    simp [hc]
  · rw [← Text.joinLines_take_append_drop t body.lines.stop]
    exact List.mem_append_right _ hc

theorem apply_content {line : Line} {front rest : Text} (hstart : line.start = front.size)
    (content : Text) :
    (⟨line.contentSpan, content⟩ : Edit).apply (front ++ (line.content ++ rest)) =
      front ++ (content ++ rest) := by
  have hbefore := Text.before_size_append front (line.content ++ rest)
  have hafter := Text.after_size_append (front ++ line.content) rest
  rw [Text.size_append, List.append_assoc] at hafter
  rw [Edit.apply, Line.contentSpan, hstart, List.append_assoc]
  exact congrArg₂ (fun a b => a ++ (content ++ b)) hbefore hafter

/-- The text after a patch that writes a block, by what the edit of the body
makes. -/
theorem applyAll_blockEdits (hline : (Outline.ofText t)[index]? = some l) {stop : Nat}
    (hstop : index < stop) {kind : BodyKind} {body : Body}
    (hbody : (Outline.ofText t).body index stop kind = body) (k : KeyLine) {rendered : List Text}
    (empty : Text) {rest : Text}
    (hrest : (bodyEdits (Outline.ofText t) l body rendered).foldr Edit.apply t =
      Text.joinLines (t.lines.take body.lines.start) ++ rest) :
    Edit.applyAll (blockEdits (Outline.ofText t) l k body rendered empty) t =
      Text.joinLines (t.lines.take index) ++
        ((if rendered.isEmpty then k.withValue empty else k.head ++ k.comment) ++
          (aboveBody t index l.line body ++ rest)) := by
  have hkeyLine := (Outline.getElem?_ofText hline).1
  have hchain := chain_blockEdits kind hline hstop k rendered empty
  have hcut := onBoundaries_blockEdits stop kind hline k rendered empty
  rw [hbody] at hchain hcut
  have hstart := lt_start_of_body hbody
  have hall : Edit.applyAll (blockEdits (Outline.ofText t) l k body rendered empty) t =
      (blockEdits (Outline.ofText t) l k body rendered empty).foldr Edit.apply t := by
    have hzero : Text.before 0 t = [] := by
      cases t <;> simp [Text.before]
    have hwhole := hchain.mono (Nat.zero_le _) (Nat.le_refl _)
    rw [Edit.foldr_apply (Edit.isBoundary_zero t) hcut hwhole, hzero, Edit.applyAll,
      Edit.sortByStart_of_pairwise hchain.pairwise, List.nil_append]
  generalize hhead : (if rendered.isEmpty then k.withValue empty else k.head ++ k.comment) = head
  have hfront := Text.start_eq_lineOffset hkeyLine
  rw [hall, blockEdits, List.foldr_append, hrest, joinLines_take_start hkeyLine hstart]
  simp only [List.append_assoc, headEdits, hhead]
  by_cases hsame : head = l.line.content
  · rw [if_pos hsame, hsame]
    rfl
  · rw [if_neg hsame]
    exact apply_content hfront head

theorem exists_applyAll_blockEdits (hline : (Outline.ofText t)[index]? = some l) {stop : Nat}
    (hstop : index < stop) {kind : BodyKind} {body : Body}
    (hbody : (Outline.ofText t).body index stop kind = body) (k : KeyLine) (rendered : List Text)
    (empty : Text) :
    ∃ text, IsBodyText t l body rendered text ∧
      Edit.applyAll (blockEdits (Outline.ofText t) l k body rendered empty) t =
        Text.joinLines (t.lines.take index) ++
          ((if rendered.isEmpty then k.withValue empty else k.head ++ k.comment) ++
            (aboveBody t index l.line body ++ (text ++ beneathBody t body))) := by
  obtain ⟨text, htext, hbodyEdits⟩ := exists_isBodyText hline hbody rendered
  exact ⟨text, htext, applyAll_blockEdits hline hstop hbody k empty hbodyEdits⟩

/-! ## The text as it is read -/

theorem exists_toText_eq_concat {terminator : Terminator} (h : terminator ≠ .none) :
    ∃ y, terminator.toText = y ++ ['\n'] := by
  cases terminator with
  | none => exact absurd rfl h
  | lf => exact ⟨[], rfl⟩
  | crlf => exact ⟨['\r'], rfl⟩

section Read

variable {stop : Nat} {kind : BodyKind} {body : Body} {rendered : List Text} {text : Text}
  (hline : (Outline.ofText t)[index]? = some l)
  (hbody : (Outline.ofText t).body index stop kind = body)

include hline hbody

/-- The lines down to a body are ended; only a key line at the end of the
document may be open. -/
theorem aboveBody_cases :
    (aboveBody t index l.line body = [] ∧ l.line.terminator = .none ∧
        t.lines.drop body.lines.stop = []) ∨
      l.line.terminator ≠ .none ∧ ∃ y, aboveBody t index l.line body = y ++ ['\n'] := by
  have hkeyLine := (Outline.getElem?_ofText hline).1
  have hcases := Outline.body_cases (Outline.ofText t) index stop kind
  rw [hbody, Outline.length_ofText] at hcases
  unfold aboveBody
  rcases hcases with hempty | ⟨hstart, hlt, -, hstop, -⟩
  · have hnone : (t.lines.take (index + 1)).drop (index + 1) = [] :=
      List.drop_eq_nil_of_le (List.length_take_le _ _)
    rw [hempty, hnone]
    by_cases hterminator : l.line.terminator = .none
    · left
      refine ⟨by rw [hterminator]; rfl, hterminator, ?_⟩
      exact Text.drop_lines_of_terminator_eq_none hkeyLine hterminator
    · right
      obtain ⟨y, hy⟩ := exists_toText_eq_concat hterminator
      exact ⟨hterminator, y, by rw [hy]; simp [Text.joinLines]⟩
  · right
    -- every line above the body is followed by another one
    have hended : ∀ k (line : Line), t.lines[k]? = some line → k < body.lines.start →
        line.terminator ≠ .none := by
      intro k line hk hlt' hnone
      have hlength := Text.drop_lines_of_terminator_eq_none hk hnone
      rw [List.drop_eq_nil_iff] at hlength
      omega
    have hterminator := hended index l.line hkeyLine hstart
    refine ⟨hterminator, ?_⟩
    rcases Nat.eq_or_lt_of_le (Nat.succ_le_of_lt hstart) with hnext | hnext
    · obtain ⟨y, hy⟩ := exists_toText_eq_concat hterminator
      refine ⟨y, ?_⟩
      rw [← hnext, hy, List.drop_eq_nil_of_le (List.length_take_le _ _)]
      simp [Text.joinLines]
    · obtain ⟨n, hn⟩ : ∃ n, body.lines.start = n + 1 := Nat.exists_eq_add_of_le' (by omega)
      have hlast : t.lines[n]? = some t.lines[n] := List.getElem?_eq_getElem (by omega)
      obtain ⟨y, hy⟩ := exists_toText_eq_concat (hended n _ hlast (by omega))
      refine ⟨l.line.terminator.toText ++ (Text.joinLines ((t.lines.take n).drop (index + 1)) ++
        (t.lines[n].content ++ y)), ?_⟩
      have htake : (t.lines.take (n + 1)).drop (index + 1) =
          (t.lines.take n).drop (index + 1) ++ [t.lines[n]] := by
        rw [Text.take_succ_lines hlast, List.drop_append_of_le_length]
        rw [List.length_take]
        omega
      rw [hn, htake, Text.joinLines_append, Text.joinLines_singleton, Line.raw, hy]
      simp

theorem exists_read_aboveBody :
    (aboveBody t index l.line body = [] ∧ l.line.terminator = .none ∧ beneathBody t body = []) ∨
      l.line.terminator ≠ .none ∧ ∃ x, withLineFeeds (aboveBody t index l.line body) = x ++ ['\n'] ∧
        ∀ z, withLineFeeds (aboveBody t index l.line body ++ z) = x ++ '\n' :: withLineFeeds z := by
  rcases aboveBody_cases hline hbody with ⟨habove, hnone, hdrop⟩ | ⟨hterminator, y, habove⟩
  · left
    refine ⟨habove, hnone, ?_⟩
    rw [beneathBody, hdrop]
    rfl
  · right
    obtain ⟨x, hx⟩ := Source.exists_withLineFeeds_lineFeed y
    refine ⟨hterminator, x, ?_, fun z => ?_⟩
    · rw [habove]
      exact hx []
    · rw [habove, List.append_assoc]
      exact hx z

/-- New lines hang below the key line or below the lines above the body, and
beneath them stands the text beneath, which is none where nothing stands beneath
the body. -/
theorem exists_read_block (htext : IsBodyText t l body rendered text) (hne : rendered ≠ [])
    (hrendered : ∀ l ∈ rendered, ∀ c ∈ l, isInline c = true) {beneath : Text}
    (hbeneath : beneathBody t body = [] → beneath = []) :
    ∃ x tail,
      (x = [] ∧ withLineFeeds (aboveBody t index l.line body) = [] ∨
        withLineFeeds (aboveBody t index l.line body) = x ++ ['\n']) ∧
      (tail = [] ∧ beneath = [] ∨ tail = '\n' :: withLineFeeds beneath) ∧
      withLineFeeds (aboveBody t index l.line body ++ (text ++ beneath)) =
        x ++ hang body.indent rendered tail := by
  have hending := orLf_toText l.line.terminator
  have habove := exists_read_aboveBody hline hbody
  cases htext with
  | none h => exact absurd h hne
  | below _ hkey hlast =>
      obtain ⟨hnil, -, hnone⟩ := habove.resolve_right fun h => h.1 hkey
      refine ⟨[], [], Or.inl ⟨rfl, by rw [hnil]; rfl⟩, Or.inl ⟨rfl, hbeneath hnone⟩, ?_⟩
      rw [hnil, hbeneath hnone, List.append_nil, List.nil_append, List.nil_append,
        ← withLineFeeds_joinWith (Or.inl rfl) hne hrendered]
      exact Source.withLineFeeds_cons (by decide) (by decide) _
  | block _ hkey open_ hlast =>
      obtain ⟨-, x, hread, hx⟩ := habove.resolve_left fun h => hkey h.2.1
      cases open_ with
      | true =>
          have hnone : beneathBody t body = [] := by
            rw [beneathBody, hlast rfl]
            rfl
          refine ⟨x, [], Or.inr hread, Or.inl ⟨rfl, hbeneath hnone⟩, ?_⟩
          rw [hx, hbeneath hnone, List.append_nil, ← withLineFeeds_joinWith hending hne hrendered]
          rfl
      | false =>
          refine ⟨x, _, Or.inr hread, Or.inr rfl, ?_⟩
          rw [hx, ← withLineFeeds_flatMap hending hrendered]
          rfl

end Read

end Patch

end Marginalia.Yaml
