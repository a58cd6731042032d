import Mathlib
import NandHdl.Text.Words

/-!
# Words and lines put together

* `Text.pieces_eq_splitOnP`: cutting at separators loses nothing but the separators.
* `Text.words_append_cons`: **words end at white space.** `Text.mem_words`, `Text.words_eq_nil_iff`: what words are.
* `Text.words_intercalate`: words with spaces between them are read back.
* `Text.lines_join`: **lines that end at a line feed each are read back.**
-/

namespace NandHdl.Text

variable {sep : Char → Bool} {c : Char} {w cs ds : List Char}

theorem pieces_eq_splitOnP (sep : Char → Bool) (cs : List Char) : pieces sep cs = cs.splitOnP sep := by
  induction cs with
  | nil => rfl
  | cons c cs ih =>
    obtain ⟨p, ps, hps⟩ := List.exists_cons_of_ne_nil (List.splitOnP_ne_nil sep cs)
    rw [pieces, ih, List.splitOnP_cons_eq_if_modifyHead, hps]
    rfl

/-- What is in a piece is in the text and no separator. -/
theorem of_mem_pieces (hw : w ∈ pieces sep cs) (hc : c ∈ w) : c ∈ cs ∧ sep c = false := by
  induction cs generalizing w with
  | nil =>
    rw [List.mem_singleton.1 hw] at hc
    cases hc
  | cons d cs ih =>
    obtain ⟨p, ps, hps⟩ := List.exists_cons_of_ne_nil (List.splitOnP_ne_nil sep cs)
    rw [← pieces_eq_splitOnP] at hps
    rw [pieces, hps] at hw
    rw [hps] at ih
    dsimp only at hw
    split at hw
    · rcases List.mem_cons.1 hw with rfl | hw
      · cases hc
      · exact (ih hw hc).imp_left (List.mem_cons_of_mem d)
    · next hd =>
      rcases List.mem_cons.1 hw with rfl | hw
      · rcases List.mem_cons.1 hc with rfl | hc
        · exact ⟨List.mem_cons_self, Bool.eq_false_iff.2 hd⟩
        · exact (ih List.mem_cons_self hc).imp_left (List.mem_cons_of_mem d)
      · exact (ih (List.mem_cons_of_mem p hw) hc).imp_left (List.mem_cons_of_mem d)

/-! ## Words -/

/-- **Words end at white space.** -/
theorem words_append_cons (cs ds : List Char) (hc : isBlank c = true) :
    words (cs ++ c :: ds) = words cs ++ words ds := by
  simp only [words, pieces_eq_splitOnP, List.splitOnP_append_cons cs ds hc, List.filter_append, List.map_append]

/-- Characters without white space are one word. -/
theorem words_of_solid (hne : w ≠ []) (hw : ∀ c ∈ w, isBlank c = false) : words w = [String.ofList w] := by
  rw [words, pieces_eq_splitOnP, List.splitOnP_eq_singleton hw]
  simp [hne]

/-- A word has characters, all of them of the text and none of them white space. -/
theorem mem_words {word : String} (h : word ∈ words cs) :
    word ≠ "" ∧ ∀ c ∈ word.toList, c ∈ cs ∧ isBlank c = false := by
  obtain ⟨w, hw, rfl⟩ := List.mem_map.1 h
  obtain ⟨hmem, hne⟩ := List.mem_filter.1 hw
  constructor
  · intro hempty
    rw [← String.toList_inj, String.toList_ofList] at hempty
    rw [hempty] at hne
    cases hne
  · intro c hc
    rw [String.toList_ofList] at hc
    exact of_mem_pieces hmem hc

/-- A text without words is all white space. -/
theorem words_eq_nil_iff : words cs = [] ↔ ∀ c ∈ cs, isBlank c = true := by
  induction cs with
  | nil => exact ⟨fun _ => List.forall_mem_nil _, fun _ => rfl⟩
  | cons c cs ih =>
    rw [List.forall_mem_cons, ← ih]
    cases hc : isBlank c with
    | true =>
      have hcons : words (c :: cs) = words cs := words_append_cons [] cs hc
      simp [hcons]
    | false =>
      -- the first piece starts with the character
      obtain ⟨p, ps, hps⟩ := List.exists_cons_of_ne_nil (List.splitOnP_ne_nil isBlank cs)
      have hcons : words (c :: cs) = String.ofList (c :: p) :: (ps.filter (!·.isEmpty)).map String.ofList := by
        rw [words, pieces_eq_splitOnP, List.splitOnP_cons_eq_if_modifyHead, hps]
        simp [hc]
      simp [hcons]

/-- Words with spaces between them have the characters of the words, and spaces. -/
theorem of_mem_intercalate {ws : List String} (h : c ∈ (" ".intercalate ws).toList) :
    c = ' ' ∨ ∃ word ∈ ws, c ∈ word.toList := by
  rw [String.toList_intercalate] at h
  induction ws with
  | nil => cases h
  | cons word ws ih =>
    cases ws with
    | nil => exact .inr ⟨word, by simp, by simpa using h⟩
    | cons next ws =>
      rw [List.map_cons, List.map_cons, List.intercalate_cons_cons, List.append_assoc] at h
      rcases List.mem_append.1 h with h | h
      · exact .inr ⟨word, by simp, h⟩
      rcases List.mem_cons.1 h with h | h
      · exact .inl h
      · exact (ih h).imp_right fun ⟨w, hw, hc⟩ => ⟨w, List.mem_cons_of_mem word hw, hc⟩

/-- Words with spaces between them are read back. -/
theorem words_intercalate {ws : List String} (h : ∀ word ∈ ws, word ≠ "" ∧ ∀ c ∈ word.toList, isBlank c = false) :
    words (" ".intercalate ws).toList = ws := by
  have hone : ∀ word ∈ ws, words word.toList = [word] := fun word hword => by
    have hne : word.toList ≠ [] := fun hnil => (h word hword).1 (String.toList_inj.1 hnil)
    rw [words_of_solid hne (h word hword).2, String.ofList_toList]
  rw [String.toList_intercalate]
  induction ws with
  | nil => rfl
  | cons word ws ih =>
    obtain ⟨hword, hws⟩ := List.forall_mem_cons.1 hone
    cases ws with
    | nil => simpa using hword
    | cons next ws =>
      have hrest := ih (fun w hw => h w (List.mem_cons_of_mem word hw)) hws
      rw [List.map_cons, List.map_cons, List.intercalate_cons_cons, List.append_assoc]
      rw [List.map_cons] at hrest
      exact (words_append_cons _ _ rfl).trans (congrArg₂ (· ++ ·) hword hrest)

/-! ## Lines -/

/-- The first line, if it ends at a line feed. -/
theorem linesOfPieces_append_cons (h : '\n' ∉ cs) (ds : List Char) :
    linesOfPieces (pieces (· = '\n') (cs ++ '\n' :: ds)) = dropReturn cs :: linesOfPieces (pieces (· = '\n') ds) := by
  have hcs : ∀ c ∈ cs, decide (c = '\n') = false := fun c hc => decide_eq_false fun heq => h (heq ▸ hc)
  obtain ⟨p, ps, hps⟩ := List.exists_cons_of_ne_nil (List.splitOnP_ne_nil (· = '\n') ds)
  rw [pieces_eq_splitOnP, List.splitOnP_append_cons cs ds (decide_eq_true rfl), List.splitOnP_eq_singleton hcs,
    pieces_eq_splitOnP, hps]
  rfl

/-- **Lines that end at a line feed each are read back.** -/
theorem lines_join {ls : List String} (h : ∀ l ∈ ls, '\n' ∉ l.toList ∧ l.toList.getLast? ≠ some '\r') :
    lines (String.join (ls.map (· ++ "\n"))) = ls := by
  have hlines : linesOfPieces (pieces (· = '\n') (String.join (ls.map (· ++ "\n"))).toList) = ls.map String.toList := by
    rw [String.toList_join, List.flatMap_map]
    induction ls with
    | nil => rfl
    | cons l ls ih =>
      obtain ⟨⟨hfeed, hreturn⟩, hls⟩ := List.forall_mem_cons.1 h
      rw [List.flatMap_cons, String.toList_append, List.append_assoc]
      refine (linesOfPieces_append_cons hfeed _).trans ?_
      rw [dropReturn, if_neg hreturn, List.map_cons, ← ih hls]
      rfl
  rw [lines, hlines, List.map_map]
  exact (List.map_congr_left fun l _ => String.ofList_toList).trans (List.map_id ls)

end NandHdl.Text
