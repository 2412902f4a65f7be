import Mathlib.Algebra.Ring.Nat
import WordLang.Proofs.ErrorPlaces
import WordLang.Proofs.Substitution

/-!
# Lines and columns as coordinates

A line and a column say where a byte offset is: the lines before it, each with its newline, and the bytes before it on
its own line make up the offset. So positions are in the order of their offsets.
-/

namespace WordLang.Text

/-! ## Boundaries -/

private theorem byteLength_toList (source : String) : byteLength source.toList = source.utf8ByteSize := by
  rw [← utf8ByteSize_ofList, String.ofList_toList]

private theorem boundary_iff {source : String} {offset : Nat} :
    Boundary source offset ↔ String.Pos.Raw.IsValid source ⟨offset⟩ := by
  refine ⟨Boundary.isValid, fun h => ?_⟩
  obtain ⟨before, after, rfl, hoffset⟩ := String.Pos.Raw.isValid_iff_exists_append.mp h
  refine ⟨before.toList, after.toList, String.toList_append, ?_⟩
  rw [byteLength_toList]
  exact congrArg String.Pos.Raw.byteIdx hoffset.symm

/-! ## Lines and their bytes -/

section Lines

variable {xs ys first last : List Char} {init rest : List (List Char)}

private theorem exists_last_line (xs : List Char) : ∃ init last, lines xs = init ++ [last] ∧
    ∀ {ys first rest}, lines ys = first :: rest → lines (xs ++ ys) = init ++ (last ++ first) :: rest := by
  induction xs with
  | nil => exact ⟨[], [], rfl, fun hys => hys⟩
  | cons c xs ih =>
    obtain ⟨init, last, hxs, happend⟩ := ih
    by_cases hc : c = '\n'
    · refine ⟨[] :: init, last, by rw [hc, lines_newline_cons, hxs]; rfl, fun hys => ?_⟩
      rw [hc, List.cons_append, lines_newline_cons, happend hys]
      rfl
    · cases init with
      | nil => exact ⟨[], c :: last, lines_cons hc hxs, fun hys => lines_cons hc (happend hys)⟩
      | cons l init => exact ⟨(c :: l) :: init, last, lines_cons hc hxs, fun hys => lines_cons hc (happend hys)⟩

private theorem lines_append_last (hxs : lines xs = init ++ [last]) (hys : lines ys = first :: rest) :
    lines (xs ++ ys) = init ++ (last ++ first) :: rest := by
  obtain ⟨init', last', hxs', happend⟩ := exists_last_line xs
  obtain ⟨rfl, hlast⟩ := List.append_inj' (hxs'.symm.trans hxs) rfl
  rw [happend hys, List.singleton_inj.mp hlast]

/-- The offset of a line: the bytes of the lines before it, each with its newline. -/
def lineStart (ls : List (List Char)) (n : Nat) : Nat :=
  ((ls.take n).map fun l => byteLength l + 1).sum

private theorem byteLength_lines (cs : List Char) :
    byteLength cs + 1 = ((lines cs).map fun l => byteLength l + 1).sum := by
  induction cs with
  | nil => rfl
  | cons c cs ih =>
    by_cases hc : c = '\n'
    · have hsize : '\n'.utf8Size = 1 := by decide
      rw [hc, lines_newline_cons, List.map_cons, List.sum_cons, ← ih, byteLength, byteLength, hsize]
      omega
    · obtain ⟨l, ls, hls⟩ := exists_lines cs
      rw [hls, List.map_cons, List.sum_cons] at ih
      rw [lines_cons hc hls, List.map_cons, List.sum_cons, byteLength, byteLength]
      omega

variable {ls : List (List Char)} {l : List Char} {m n : Nat}

private theorem lineStart_succ (h : ls[n]? = some l) : lineStart ls (n + 1) = lineStart ls n + (byteLength l + 1) := by
  rw [lineStart, List.take_add_one, h, List.map_append, List.sum_append]
  rfl

private theorem lineStart_mono (h : m ≤ n) : lineStart ls m ≤ lineStart ls n := by
  have hsub : ls.take m <+: ls.take n := List.take_prefix_take_left h
  obtain ⟨rest, hrest⟩ := hsub
  rw [lineStart, lineStart, ← hrest, List.map_append, List.sum_append]
  exact Nat.le_add_right _ _

end Lines

namespace Position

/-! ## The position behind a text -/

/-- The position behind a character. -/
def next (pos : Position) (c : Char) : Position :=
  if c = '\n' then ⟨pos.line + 1, 1⟩ else ⟨pos.line, pos.column + c.utf8Size⟩

/-- The position is at the end of the last line of a text. -/
def Behind (pos : Position) (cs : List Char) : Prop :=
  ∃ init last, lines cs = init ++ [last] ∧ pos = ⟨init.length + 1, byteLength last + 1⟩

variable {pos pos' : Position} {cs before after : List Char} {source : String} {offset offset' : Nat}

private theorem Behind.next (h : pos.Behind cs) (c : Char) : (pos.next c).Behind (cs ++ [c]) := by
  obtain ⟨init, last, hlines, rfl⟩ := h
  by_cases hc : c = '\n'
  · refine ⟨lines cs, [], by rw [hc, lines_append_newline]; rfl, ?_⟩
    rw [Position.next, if_pos hc, hlines, List.length_append]
    rfl
  · have hself : lines [c] = [[c]] := lines_cons hc rfl
    refine ⟨init, last ++ [c], lines_append_last hlines hself, ?_⟩
    rw [Position.next, if_neg hc, byteLength_append, byteLength, byteLength, Nat.add_right_comm]
    rfl

private theorem Behind.foldl (h : pos.Behind before) (cs : List Char) :
    (cs.foldl Position.next pos).Behind (before ++ cs) := by
  induction cs generalizing pos before with
  | nil => rwa [List.append_nil]
  | cons c cs ih =>
    have hstep := ih (h.next c)
    rwa [List.append_assoc] at hstep

private theorem behind_start : (⟨1, 1⟩ : Position).Behind [] :=
  ⟨[], [], rfl, rfl⟩

/-! ## Offsets -/

/-- The position is on a line of the text, and the lines before it and the bytes before it on this line make up the
offset. -/
structure Locates (pos : Position) (source : String) (offset : Nat) : Prop where
  line_pos : 1 ≤ pos.line
  column_pos : 1 ≤ pos.column
  on_line : ∃ line, (lines source.toList)[pos.line - 1]? = some line ∧ pos.column - 1 ≤ byteLength line
  offset_eq : lineStart (lines source.toList) (pos.line - 1) + (pos.column - 1) = offset

/-- Of two positions, the first is on an earlier line or further left on the same line. -/
def Before (pos pos' : Position) : Prop :=
  pos.line < pos'.line ∨ pos.line = pos'.line ∧ pos.column < pos'.column

private theorem Behind.locates (h : pos.Behind before) (hsource : source.toList = before ++ after) :
    pos.Locates source (byteLength before) := by
  obtain ⟨init, last, hbefore, rfl⟩ := h
  obtain ⟨first, rest, hafter⟩ := exists_lines after
  have hlines : lines source.toList = init ++ (last ++ first) :: rest := by
    rw [hsource, lines_append_last hbefore hafter]
  refine ⟨Nat.le_add_left .., Nat.le_add_left .., ⟨last ++ first, ?_, ?_⟩, ?_⟩
  · simp [hlines]
  · simp [byteLength_append]
  · have hstart : lineStart (lines source.toList) init.length = (init.map fun l => byteLength l + 1).sum := by
      rw [hlines, lineStart, List.take_left]
    have hbytes := byteLength_lines before
    rw [hbefore, List.map_append, List.sum_append, List.map_singleton, List.sum_singleton, ← hstart] at hbytes
    change lineStart (lines source.toList) init.length + byteLength last = byteLength before
    omega

private theorem Locates.lt (h : pos.Locates source offset) (h' : pos'.Locates source offset')
    (hbefore : pos.Before pos') :
    offset < offset' := by
  obtain ⟨line, hline, hcolumn⟩ := h.on_line
  rw [← h.offset_eq, ← h'.offset_eq]
  rcases hbefore with hlt | ⟨heq, hlt⟩
  · have hnext := lineStart_succ hline
    have hmono : lineStart (lines source.toList) (pos.line - 1 + 1) ≤ lineStart (lines source.toList) (pos'.line - 1) :=
      lineStart_mono (by have := h.line_pos; omega)
    omega
  · have hpos := h.column_pos
    rw [heq]
    omega

private theorem before_trichotomy (pos pos' : Position) : pos.Before pos' ∨ pos = pos' ∨ pos'.Before pos := by
  rcases Nat.lt_trichotomy pos.line pos'.line with hlt | heq | hgt
  · exact .inl (.inl hlt)
  · rcases Nat.lt_trichotomy pos.column pos'.column with hlt | heq' | hgt
    · exact .inl (.inr ⟨heq, hlt⟩)
    · obtain ⟨line, column⟩ := pos
      obtain rfl : line = pos'.line := heq
      obtain rfl : column = pos'.column := heq'
      exact .inr (.inl rfl)
    · exact .inr (.inr (.inr ⟨heq.symm, hgt⟩))
  · exact .inr (.inr (.inl hgt))

private theorem Locates.lt_iff (h : pos.Locates source offset) (h' : pos'.Locates source offset') :
    offset < offset' ↔ pos.Before pos' := by
  refine ⟨fun hlt => ?_, h.lt h'⟩
  rcases before_trichotomy pos pos' with hbefore | rfl | hafter
  · exact hbefore
  · exact absurd (h.offset_eq.symm.trans h'.offset_eq) (by omega)
  · exact absurd (h'.lt h hafter) (by omega)

private theorem Locates.eq_iff (h : pos.Locates source offset) (h' : pos'.Locates source offset') :
    offset = offset' ↔ pos = pos' := by
  constructor
  · rintro rfl
    rcases before_trichotomy pos pos' with hbefore | heq | hafter
    · exact absurd (h.lt h' hbefore) (Nat.lt_irrefl _)
    · exact heq
    · exact absurd (h'.lt h hafter) (Nat.lt_irrefl _)
  · rintro rfl
    exact h.offset_eq.symm.trans h'.offset_eq

/-! ## Reading an offset -/

private theorem advance_cons {c : Char} (h : c.utf8Size ≤ offset) :
    advance offset pos (c :: cs) = advance (offset - c.utf8Size) (pos.next c) cs := by
  have hsize := Char.utf8Size_pos c
  rw [advance, if_neg (by omega), if_neg (by omega), next]
  split <;> rfl

private theorem advance_append (h : byteLength before = min offset (byteLength (before ++ after))) :
    advance offset pos (before ++ after) = some (before.foldl next pos) := by
  induction before generalizing offset pos with
  | nil =>
    cases after with
    | nil => rfl
    | cons c after =>
      have hsize := Char.utf8Size_pos c
      simp only [List.nil_append, byteLength] at h
      rw [List.nil_append, advance, if_pos (by omega)]
      rfl
  | cons c before ih =>
    simp only [List.cons_append, byteLength] at h
    rw [List.cons_append, advance_cons (by omega), ih (by omega), List.foldl_cons]

private theorem advance_eq_some (h : advance offset pos cs = some pos') : ∃ before after, cs = before ++ after ∧
    byteLength before = min offset (byteLength cs) ∧ pos' = before.foldl next pos := by
  induction cs generalizing offset pos with
  | nil => exact ⟨[], [], rfl, (Nat.min_zero _).symm, (Option.some.inj h).symm⟩
  | cons c cs ih =>
    by_cases hzero : offset = 0
    · rw [advance, if_pos hzero] at h
      exact ⟨[], c :: cs, rfl, by rw [hzero, Nat.zero_min]; rfl, (Option.some.inj h).symm⟩
    · by_cases hinside : offset < c.utf8Size
      · simp [advance, hzero, hinside] at h
      · rw [advance_cons (by omega)] at h
        obtain ⟨before, after, rfl, hbefore, rfl⟩ := ih h
        refine ⟨c :: before, after, rfl, ?_, rfl⟩
        rw [byteLength, byteLength, hbefore]
        omega

/-- An offset at a character boundary or beyond the end has a position. -/
theorem exists_ofOffset (h : Boundary source (min offset source.utf8ByteSize)) :
    ∃ pos, ofOffset source offset = some pos := by
  obtain ⟨before, after, hsource, hbefore⟩ := h
  refine ⟨before.foldl next ⟨1, 1⟩, ?_⟩
  rw [ofOffset, hsource]
  apply advance_append
  rw [hbefore, ← hsource, byteLength_toList]

/-- Other offsets have none, and a position is where its offset is, or at the end. -/
theorem boundary_locates (h : ofOffset source offset = some pos) :
    Boundary source (min offset source.utf8ByteSize) ∧ pos.Locates source (min offset source.utf8ByteSize) := by
  obtain ⟨before, after, hsource, hbefore, rfl⟩ := advance_eq_some h
  rw [← byteLength_toList, ← hbefore]
  exact ⟨⟨before, after, hsource, rfl⟩, (behind_start.foldl before).locates hsource⟩

/-- Byte offsets at character boundaries, and those beyond the end, which stand for the end, have positions. A
position is on a line of the text; the lines before it, each with its newline, and the bytes before its column make
up the offset, and the column is at most one behind the line. Positions are in the order of their offsets, and
different offsets in the text have different positions. -/
theorem ofOffset_faithful (source : String) :
    (∀ offset, (∃ pos, ofOffset source offset = some pos) ↔
      String.Pos.Raw.IsValid source ⟨min offset source.utf8ByteSize⟩) ∧
    (∀ offset pos, ofOffset source offset = some pos → pos.Locates source (min offset source.utf8ByteSize)) ∧
    ∀ offset offset' pos pos', ofOffset source offset = some pos → ofOffset source offset' = some pos' →
      (min offset source.utf8ByteSize < min offset' source.utf8ByteSize ↔ pos.Before pos') ∧
      (min offset source.utf8ByteSize = min offset' source.utf8ByteSize ↔ pos = pos') := by
  refine ⟨fun offset => ?_, fun offset pos h => (boundary_locates h).2, fun offset offset' pos pos' h h' => ?_⟩
  · rw [← boundary_iff]
    exact ⟨fun ⟨pos, h⟩ => (boundary_locates h).1, exists_ofOffset⟩
  · have hlocates := (boundary_locates h).2
    have hlocates' := (boundary_locates h').2
    exact ⟨hlocates.lt_iff hlocates', hlocates.eq_iff hlocates'⟩

theorem ofOffset_faithful_wide :
    ofOffset "é\nβx\n" 2 = some ⟨1, 3⟩ ∧ ofOffset "é\nβx\n" 5 = some ⟨2, 3⟩ ∧
      ofOffset "é\nβx\n" 9 = some ⟨3, 1⟩ ∧
      (⟨2, 3⟩ : Position).Locates "é\nβx\n" 5 ∧ (⟨3, 1⟩ : Position).Locates "é\nβx\n" 7 ∧
      (⟨1, 3⟩ : Position).Before ⟨2, 3⟩ := by
  have hnewline : ofOffset "é\nβx\n" 2 = some ⟨1, 3⟩ := by decide
  have hinner : ofOffset "é\nβx\n" 5 = some ⟨2, 3⟩ := by decide
  have hend : ofOffset "é\nβx\n" 9 = some ⟨3, 1⟩ := by decide
  obtain ⟨-, hlocates, horder⟩ := ofOffset_faithful "é\nβx\n"
  exact ⟨hnewline, hinner, hend, hlocates 5 _ hinner, hlocates 9 _ hend,
    (horder 2 5 _ _ hnewline hinner).1.mp (by decide)⟩

end Position

end WordLang.Text
