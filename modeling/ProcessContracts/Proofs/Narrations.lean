import Mathlib.Order.Lattice
import ProcessContracts.Narration.Basic

/-!
# Excerpts show what diagnostics point at

The excerpt around a region starts with the line before the one where the region starts, and it
covers the region. It is found unless the region lies past the end of the text. A diagnostic points
there only with an inverted span: about any other one the handler that runs writes its report.
-/

namespace ProcessContracts

/-! ## Texts -/

@[simp] theorem byteLength_nil : byteLength [] = 0 := rfl

@[simp] theorem byteLength_cons (c : Char) (cs : List Char) :
    byteLength (c :: cs) = c.utf8Size + byteLength cs := rfl

theorem byteLength_of_endsLine {c : Char} (h : c = '\r' ∨ c = '\n') (cs : List Char) :
    byteLength (c :: cs) = byteLength cs + 1 := by
  rcases h with rfl | rfl <;> exact Nat.add_comm _ _

theorem byteLength_toList (text : String) : byteLength text.toList = text.utf8ByteSize := by
  suffices h : ∀ cs, byteLength cs = (String.ofList cs).utf8ByteSize by
    rw [h, String.ofList_toList]
  intro cs
  induction cs with
  | nil => rfl
  | cons c cs ih =>
      have hsplit : String.ofList (c :: cs) = String.singleton c ++ String.ofList cs := by
        rw [String.singleton_eq_ofList, ← String.ofList_append]
        rfl
      rw [hsplit, String.utf8ByteSize_append, String.utf8ByteSize_singleton, ← ih, byteLength_cons]

/-- Where the lines of a text that starts at `offset` start, the first one left out. -/
def lineStarts (offset : Nat) : List Char → List Nat
  | [] => []
  | '\r' :: '\n' :: rest => (offset + 2) :: lineStarts (offset + 2) rest
  | c :: rest =>
      if c = '\r' ∨ c = '\n' then (offset + 1) :: lineStarts (offset + 1) rest
      else lineStarts (offset + c.utf8Size) rest

theorem lt_of_mem_lineStarts {offset start : Nat} {text : List Char}
    (h : start ∈ lineStarts offset text) : offset < start := by
  fun_induction lineStarts offset text with
  | case1 => cases h
  | case2 offset rest ih =>
      rcases List.mem_cons.1 h with rfl | h
      · exact Nat.lt_add_of_pos_right Nat.two_pos
      · exact (Nat.le_add_right _ _).trans_lt (ih h)
  | case3 offset c rest _ hend ih =>
      rcases List.mem_cons.1 h with rfl | h
      · exact Nat.lt_succ_self _
      · exact (Nat.le_add_right _ _).trans_lt (ih h)
  | case4 offset c rest _ hend ih => exact (Nat.le_add_right _ _).trans_lt (ih h)

/-! ## Excerpts -/

/-- The excerpt lies in a text of `size` bytes. It reaches the region's last byte, and contains the
region if that lies in the text as well. -/
structure Excerpt.Covers (region : Region) (size : Nat) (excerpt : Excerpt) : Prop where
  start_le : excerpt.start ≤ region.offset
  stop_le : excerpt.stop ≤ size
  last_le : region.last ≤ excerpt.stop
  covered : region.stop ≤ size → region.stop ≤ excerpt.stop

/-- The answer of a search in a text of `size` bytes is right. -/
def Region.ShownBy (region : Region) (size : Nat) : Option Excerpt → Prop
  | none => size < region.last
  | some excerpt => excerpt.Covers region size

/-- How many of the lines start before the region or with it. -/
def Region.reached (region : Region) (starts : List Nat) : Nat :=
  starts.countP (· ≤ region.offset)

section Reached

variable {region : Region} {start : Nat}

theorem Region.reached_cons_of_le (h : start ≤ region.offset) (starts : List Nat) :
    region.reached (start :: starts) = region.reached starts + 1 :=
  List.countP_cons_of_pos (decide_eq_true h)

theorem Region.reached_cons_of_lt (h : region.offset < start) (starts : List Nat) :
    region.reached (start :: starts) = region.reached starts :=
  List.countP_cons_of_neg (by simpa using h)

/-- None of the lines that follow does so if the region has started. -/
theorem Region.reached_lineStarts (region : Region) {offset : Nat} (h : region.offset ≤ offset)
    (text : List Char) : region.reached (lineStarts offset text) = 0 :=
  List.countP_eq_zero.2 fun _ hstart hle =>
    absurd (h.trans_lt (lt_of_mem_lineStarts hstart)) (not_lt.2 (of_decide_eq_true hle))

end Reached

namespace Framing

variable {region : Region} {f : Framing} {excerpt : Excerpt} {text : List Char}

/-- What the search knows is right. -/
structure Sound (region : Region) (f : Framing) : Prop where
  passed : f.passed = true → region.stop ≤ f.offset
  lineStart : f.lineStart ≤ f.offset
  previous : ∀ start, f.previous = some start → start ≤ region.offset

theorem Sound.start (region : Region) : Sound region {} where
  passed h := by cases h
  lineStart := le_rfl
  previous _ h := by cases h

/-- The first byte of an end of line that has two. -/
theorem Sound.skip (h : f.Sound region) : Sound region { f with offset := f.offset + 1 } where
  passed hpassed := (h.passed hpassed).trans (Nat.le_succ _)
  lineStart := h.lineStart.trans (Nat.le_succ _)
  previous := h.previous

theorem Sound.take (h : f.Sound region) (width : Nat) : (f.take region width).Sound region where
  passed hpassed := by
    rcases Bool.or_eq_true_iff.1 hpassed with hpassed | hlast
    · exact (h.passed hpassed).trans (Nat.le_add_right _ _)
    · have hlast := of_decide_eq_true hlast
      simp only [Region.last] at hlast
      change region.stop ≤ f.offset + width
      omega
  lineStart := h.lineStart.trans (Nat.le_add_right _ _)
  previous := h.previous

theorem Sound.endLine (h : f.Sound region) : (f.endLine region).Sound region := by
  have hnext := h.take 1
  unfold Framing.endLine
  split
  case isTrue hbefore =>
    refine ⟨hnext.passed, le_rfl, ?_⟩
    rintro start ⟨⟩
    exact h.lineStart.trans hbefore.le
  case isFalse => exact ⟨hnext.passed, le_rfl, h.previous⟩

@[simp] theorem offset_endLine (region : Region) (f : Framing) :
    (f.endLine region).offset = f.offset + 1 := by
  unfold Framing.endLine
  split <;> rfl

theorem Sound.finish (h : f.Sound region) : region.ShownBy f.offset (f.finish region) := by
  have hstart : f.previous.getD 0 ≤ region.offset := by
    cases hprevious : f.previous with
    | none => exact Nat.zero_le _
    | some start => exact h.previous start hprevious
  unfold Framing.finish
  split
  case isTrue hlast => exact ⟨hstart, le_rfl, hlast, id⟩
  case isFalse hlast => exact not_le.1 hlast

theorem le_of_follows (h : f.follows region = true) : region.offset ≤ f.offset :=
  of_decide_eq_true (Bool.and_eq_true_iff.1 (Bool.and_eq_true_iff.1 h).1).1

/-- An end of line that comes after the region is a place to stop, whatever follows it. -/
theorem Sound.finish_of_follows (h : f.Sound region) (hfollows : f.follows region = true)
    {size : Nat} (hsize : f.offset + 1 ≤ size) :
    region.ShownBy size ((f.take region 1).finish region) := by
  have hstop : region.stop ≤ f.offset := h.passed (Bool.and_eq_true_iff.1 hfollows).2
  have hpast : region.stop ≤ f.offset + 1 := hstop.trans (Nat.le_succ _)
  have hshown := (h.take 1).finish
  have hlast : region.last ≤ (f.take region 1).offset := (Nat.sub_le _ _).trans hpast
  rw [Framing.finish, if_pos hlast] at hshown ⊢
  exact { hshown with stop_le := hsize, covered := fun _ => hpast }

/-- The search is right about any text that comes next. -/
theorem Sound.scan (h : f.Sound region) (text : List Char) :
    region.ShownBy (f.offset + byteLength text) (scan region f text) := by
  fun_induction Framing.scan region f text with
  | case1 f => exact h.finish
  | case2 f rest skipped hstop =>
      refine h.skip.finish_of_follows (Bool.and_eq_true_iff.1 hstop).2 ?_
      rw [byteLength_of_endsLine (.inl rfl), byteLength_of_endsLine (.inr rfl)]
      change f.offset + 1 + 1 ≤ f.offset + (byteLength rest + 1 + 1)
      omega
  | case3 f rest skipped _ ih =>
      have hrest := ih h.skip.endLine
      rw [offset_endLine] at hrest
      have hsize : f.offset + byteLength ('\r' :: '\n' :: rest) =
          f.offset + 1 + 1 + byteLength rest := by
        rw [byteLength_of_endsLine (.inl rfl), byteLength_of_endsLine (.inr rfl)]
        omega
      rwa [hsize]
  | case4 f c rest _ hend hstop =>
      refine h.finish_of_follows (Bool.and_eq_true_iff.1 hstop).2 ?_
      rw [byteLength_of_endsLine hend]
      omega
  | case5 f c rest _ hend _ ih =>
      have hrest := ih h.endLine
      rwa [offset_endLine, Nat.add_assoc, Nat.add_comm 1, ← byteLength_of_endsLine hend] at hrest
  | case6 f c rest _ _ ih =>
      have hrest := ih (h.take c.utf8Size)
      rwa [byteLength_cons, ← Nat.add_assoc]

/-- How the excerpt starts if the next lines start at `starts`: with the line before the last one of
them that starts before the region or with it, or where the search has found so far. -/
structure Opens (region : Region) (f : Framing) (starts : List Nat) (excerpt : Excerpt) : Prop where
  here : region.reached starts = 0 →
    excerpt.start = f.previous.getD 0 ∧ excerpt.linesBefore = f.linesBefore
  later : ∀ n, region.reached starts = n + 1 →
    (f.lineStart :: starts)[n]? = some excerpt.start ∧
    excerpt.linesBefore = f.linesBefore + f.previous.toList.length + n

/-- It does not matter how far the search has come in the line. -/
theorem Opens.moved {starts : List Nat} {offset : Nat} {passed : Bool}
    (h : Opens region { f with offset, passed } starts excerpt) : f.Opens region starts excerpt :=
  ⟨h.here, h.later⟩

theorem opens_of_reached_eq_zero {starts : List Nat} (h : region.reached starts = 0)
    (hstart : excerpt.start = f.previous.getD 0) (hlines : excerpt.linesBefore = f.linesBefore) :
    f.Opens region starts excerpt :=
  ⟨fun _ => ⟨hstart, hlines⟩, fun n hn => absurd (h.symm.trans hn) (Nat.succ_ne_zero n).symm⟩

theorem opens_of_finish {starts : List Nat} (hstarts : region.reached starts = 0)
    (h : f.finish region = some excerpt) : f.Opens region starts excerpt := by
  unfold Framing.finish at h
  split at h
  · obtain rfl := Option.some.inj h
    exact opens_of_reached_eq_zero hstarts rfl rfl
  · cases h

/-- An end of line before the region leaves a line behind. -/
theorem opens_of_endLine
    (h : (f.endLine region).Opens region (lineStarts (f.offset + 1) text) excerpt) :
    f.Opens region ((f.offset + 1) :: lineStarts (f.offset + 1) text) excerpt := by
  unfold Framing.endLine at h
  split at h
  case isTrue hbefore =>
    have hreached := Region.reached_cons_of_le hbefore (lineStarts (f.offset + 1) text)
    have hpast : (f.linesBefore + if f.previous.isSome then 1 else 0) =
        f.linesBefore + f.previous.toList.length := by
      cases f.previous <;> rfl
    refine ⟨fun hnone => absurd (hreached.symm.trans hnone) (Nat.succ_ne_zero _), fun n hn => ?_⟩
    have hn := Nat.succ.inj (hreached.symm.trans hn)
    rw [← hpast]
    cases n with
    | zero =>
        obtain ⟨hstart, hlines⟩ := h.here hn
        exact ⟨congrArg some hstart.symm, hlines⟩
    | succ n =>
        obtain ⟨hstart, hlines⟩ := h.later n hn
        exact ⟨hstart, hlines.trans ((Nat.add_assoc _ 1 n).trans (congrArg _ (Nat.add_comm 1 n)))⟩
  case isFalse hafter =>
    have hlt := Nat.lt_succ_of_le (not_lt.1 hafter)
    have hnone := region.reached_lineStarts hlt.le text
    obtain ⟨hstart, hlines⟩ := h.here hnone
    exact opens_of_reached_eq_zero ((Region.reached_cons_of_lt hlt _).trans hnone) hstart hlines

/-- The search opens the excerpt before the region. -/
theorem opens_scan (h : scan region f text = some excerpt) :
    f.Opens region (lineStarts f.offset text) excerpt := by
  fun_induction Framing.scan region f text with
  | case1 f => exact opens_of_finish rfl h
  | case2 f rest skipped hstop =>
      have hafter := le_of_follows (Bool.and_eq_true_iff.1 hstop).2
      have hrest := region.reached_lineStarts (Nat.le_succ_of_le hafter) rest
      have hnone := (Region.reached_cons_of_lt (Nat.lt_succ_of_le hafter) _).trans hrest
      rw [lineStarts]
      exact (opens_of_finish hnone h).moved.moved
  | case3 f rest skipped _ ih =>
      have hrest := ih h
      rw [offset_endLine] at hrest
      rw [lineStarts]
      exact (opens_of_endLine hrest).moved
  | case4 f c rest _ hend hstop =>
      have hafter := le_of_follows (Bool.and_eq_true_iff.1 hstop).2
      exact (opens_of_finish (region.reached_lineStarts hafter (c :: rest)) h).moved
  | case5 f c rest hpair hend _ ih =>
      have hrest := ih h
      rw [offset_endLine] at hrest
      rw [lineStarts.eq_3 _ _ _ hpair, if_pos hend]
      exact opens_of_endLine hrest
  | case6 f c rest hpair hend ih =>
      rw [lineStarts.eq_3 _ _ _ hpair, if_neg hend]
      exact (ih h).moved

end Framing

theorem Region.shownBy_around (region : Region) (text : List Char) :
    region.ShownBy (byteLength text) (Excerpt.around region text) := by
  have hshown := (Framing.Sound.start region).scan text
  rwa [Nat.zero_add] at hshown

/-- Only a region past the end of the text has no excerpt. -/
theorem Excerpt.around_eq_none (region : Region) (text : List Char) :
    Excerpt.around region text = none ↔ byteLength text < region.last := by
  have hshown := region.shownBy_around text
  cases haround : Excerpt.around region text with
  | none =>
      rw [haround] at hshown
      exact iff_of_true rfl hshown
  | some excerpt =>
      rw [haround] at hshown
      exact iff_of_false (Option.some_ne_none _) (not_lt.2 (hshown.last_le.trans hshown.stop_le))

/-- A region inside the text has an excerpt that contains it. -/
theorem Excerpt.exists_around {region : Region} {text : List Char}
    (h : region.stop ≤ byteLength text) : ∃ excerpt, Excerpt.around region text = some excerpt ∧
      excerpt.start ≤ region.offset ∧ region.stop ≤ excerpt.stop ∧
      excerpt.stop ≤ byteLength text := by
  have hlast : region.last ≤ byteLength text := (Nat.sub_le _ _).trans h
  have hfound := mt (Excerpt.around_eq_none region text).1 (not_lt.2 hlast)
  obtain ⟨excerpt, haround⟩ := Option.ne_none_iff_exists'.1 hfound
  have hshown := region.shownBy_around text
  rw [haround] at hshown
  exact ⟨excerpt, haround, hshown.start_le, hshown.covered h, hshown.stop_le⟩

/-- The excerpt starts with the line before the one where the region starts, or with the first line,
and has the number of lines before it right. -/
theorem Excerpt.start_around {region : Region} {text : List Char} {excerpt : Excerpt}
    (h : Excerpt.around region text = some excerpt) :
    excerpt.linesBefore = region.reached (lineStarts 0 text) - 1 ∧
    (0 :: lineStarts 0 text)[excerpt.linesBefore]? = some excerpt.start := by
  obtain ⟨hhere, hlater⟩ := Framing.opens_scan h
  cases hreached : region.reached (lineStarts 0 text) with
  | zero =>
      obtain ⟨hstart, hlines⟩ := hhere hreached
      rw [hlines, hstart]
      exact ⟨rfl, rfl⟩
  | succ n =>
      obtain ⟨hstart, hlines⟩ := hlater n hreached
      have hlines : excerpt.linesBefore = n := hlines.trans (Nat.zero_add n)
      rw [hlines]
      exact ⟨rfl, hstart⟩

/-! ## Narrations -/

namespace Narration

/-- A diagnostic points at its span, if that ends in the source text. -/
theorem region_make {program : Program} {diagnostic : Diagnostic} {region : Region} :
    (make program diagnostic).region = some region ↔ ∃ source span,
      program.source = some source ∧ diagnostic.span = some span ∧ span.stop ≤ source.size ∧
      region = ⟨span.start, span.length⟩ := by
  unfold make
  cases program.source with
  | none => simp
  | some source =>
      cases diagnostic.span with
      | none => simp
      | some span => simp [Span.fits, eq_comm]

theorem snippet_eq_none {narration : Narration} :
    narration.snippet = none ↔ ∃ source region, narration.source = some source ∧
      narration.region = some region ∧ source.size < region.last := by
  unfold snippet
  cases hsource : narration.source with
  | none => simp
  | some source =>
      cases hregion : narration.region with
      | none => simp
      | some region =>
          have haround := Excerpt.around_eq_none region source.text.toList
          rw [byteLength_toList] at haround
          cases hexcerpt : Excerpt.around region source.text.toList with
          | none => simpa [hexcerpt, SourceText.size] using haround
          | some excerpt => simpa [hexcerpt, SourceText.size] using haround

/-- The handler that runs fails at inverted spans that end in the source text and start past it, and
nowhere else. -/
theorem narratable_eq_none (program : Program) (diagnostic : Diagnostic) :
    narratable (make program diagnostic) = none ↔ ∃ source span, program.source = some source ∧
      diagnostic.span = some span ∧ span.stop ≤ source.size ∧ source.size + 1 < span.start := by
  unfold narratable
  rw [Option.map_eq_none_iff, snippet_eq_none]
  constructor
  · rintro ⟨source, region, hsource, hregion, hlast⟩
    obtain ⟨written, span, hwritten, hspan, hstop, rfl⟩ := region_make.1 hregion
    obtain rfl := Option.some.inj (hsource.symm.trans hwritten)
    change source.size < span.start + (span.stop - span.start) - 1 at hlast
    exact ⟨source, span, hsource, hspan, hstop, by omega⟩
  · rintro ⟨source, span, hsource, hspan, hstop, hstart⟩
    refine ⟨source, _, hsource, region_make.2 ⟨source, span, hsource, hspan, hstop, rfl⟩, ?_⟩
    change source.size < span.start + (span.stop - span.start) - 1
    omega

end Narration

end ProcessContracts
