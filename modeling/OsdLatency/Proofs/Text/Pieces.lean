import OsdLatency.Proofs.Text.WellFormed
import OsdLatency.Text.Line

/-!
# Lines as bytes

No sequence of bytes reaches beyond a line feed. So a file may be cut at its line feeds before it is
read, and each piece read on its own. What the bytes of one line are matters to this line only.

## Main definitions

* `byteLines` — the lines of a file as bytes

## Main results

* `splitOn_decode`, `lines_decode` — cutting and reading may be exchanged
* `isValid_eq_all` — a file is well formed if every piece is
* `getElem?_byteLines_congr` — the bytes of a line may change without any other line
-/

namespace OsdLatency.Text

variable {α : Type*}

/-! ### Cutting at a separator -/

/-- What holds of the pieces between separators, and of two parts with a separator between them
where it holds of both, holds of every list. -/
@[elab_as_elim]
theorem separatorInduction [DecidableEq α] (a : α) {motive : List α → Prop}
    (piece : ∀ l, a ∉ l → motive l)
    (join : ∀ l l', motive l → motive l' → motive (l ++ a :: l')) (l : List α) : motive l := by
  induction hn : l.length using Nat.strong_induction_on generalizing l with
  | _ n ih =>
    subst hn
    by_cases ha : a ∈ l
    · obtain ⟨front, back, rfl⟩ := List.append_of_mem ha
      rw [List.length_append, List.length_cons] at ih
      exact join front back (ih front.length (by omega) front rfl)
        (ih back.length (by omega) back rfl)
    · exact piece l ha

theorem length_splitOn [DecidableEq α] (a : α) (l : List α) :
    (l.splitOn a).length = l.count a + 1 := by
  induction l using separatorInduction a with
  | piece l ha => rw [List.splitOn_eq_singleton ha, List.count_eq_zero_of_not_mem ha]; rfl
  | join l l' ih ih' =>
    rw [List.splitOn_append_cons_self, List.length_append, ih, ih', List.count_append,
      List.count_cons_self]
    omega

/-- No piece holds the separator. -/
theorem not_mem_of_mem_splitOn [DecidableEq α] {a : α} {l piece : List α}
    (h : piece ∈ l.splitOn a) : a ∉ piece := by
  induction l using separatorInduction a with
  | piece l ha =>
    rw [List.splitOn_eq_singleton ha, List.mem_singleton] at h
    rwa [h]
  | join l l' ih ih' =>
    rw [List.splitOn_append_cons_self, List.mem_append] at h
    exact h.elim ih ih'

theorem splitOn_append_of_not_mem [DecidableEq α] {a : α} {l : List α} (ha : a ∉ l) (l' : List α) :
    (l ++ l').splitOn a = (l'.splitOn a).modifyHead (l ++ ·) := by
  induction l with
  | nil => exact (congrFun List.modifyHead_id _).symm
  | cons b l ih =>
    have hb : ¬(b == a) = true := fun h => ha (by rw [eq_of_beq h]; exact List.mem_cons_self)
    rw [List.cons_append, List.splitOn_cons_eq_if_modifyHead, if_neg hb,
      ih fun hmem => ha (List.mem_cons_of_mem b hmem), List.modifyHead_modifyHead]
    rfl

/-- The pieces of what stands before some place, of which the last one goes on there. -/
theorem exists_splitOn_append [DecidableEq α] (a : α) (front : List α) :
    ∃ pieces last, pieces.length = front.count a ∧
      ∀ back, (front ++ back).splitOn a = pieces ++ (back.splitOn a).modifyHead (last ++ ·) := by
  induction front using separatorInduction a with
  | piece l ha =>
    refine ⟨[], l, (List.count_eq_zero_of_not_mem ha).symm, fun back => ?_⟩
    rw [splitOn_append_of_not_mem ha, List.nil_append]
  | join l l' _ ih' =>
    obtain ⟨pieces, last, hlength, hsplit⟩ := ih'
    refine ⟨l.splitOn a ++ pieces, last, ?_, fun back => ?_⟩
    · rw [List.length_append, length_splitOn, hlength, List.count_append, List.count_cons_self]
      omega
    · rw [List.append_assoc, List.cons_append, List.splitOn_append_cons_self, hsplit,
        List.append_assoc]

/-- What has no separator makes up one piece, together with what stands next to it. -/
theorem exists_splitOn_between [DecidableEq α] (a : α) (front back : List α) :
    ∃ pieces first last more, pieces.length = front.count a ∧
      ∀ middle, a ∉ middle →
        (front ++ middle ++ back).splitOn a = pieces ++ (first ++ middle ++ last) :: more := by
  obtain ⟨pieces, first, hlength, hsplit⟩ := exists_splitOn_append a front
  obtain ⟨last, more, hback⟩ := List.exists_cons_of_ne_nil (List.splitOn_ne_nil a back)
  refine ⟨pieces, first, last, more, hlength, fun middle hmiddle => ?_⟩
  rw [List.append_assoc, hsplit, splitOn_append_of_not_mem hmiddle, hback, List.append_assoc]
  rfl

/-- Changing one entry of a list leaves the others alone. -/
theorem getElem?_append_cons_congr {l l' : List α} {x y : α} {i : ℕ} (hi : i ≠ l.length) :
    (l ++ x :: l')[i]? = (l ++ y :: l')[i]? := by
  rcases Nat.lt_or_gt_of_ne hi with hi | hi
  · rw [List.getElem?_append_left hi, List.getElem?_append_left hi]
  · obtain ⟨k, rfl⟩ := Nat.exists_eq_add_of_lt hi
    rw [Nat.add_assoc, List.getElem?_append_right (Nat.le_add_right _ _),
      List.getElem?_append_right (Nat.le_add_right _ _), Nat.add_sub_cancel_left]
    rfl

/-! ### The pieces of a text -/

theorem pieces_eq_splitOn (text : List Char) : pieces text = text.splitOn '\n' := by
  induction text with
  | nil => rfl
  | cons c text ih =>
    rw [List.splitOn_cons_eq_if_modifyHead, ← ih]
    by_cases hc : (c == '\n') = true
    · rw [if_pos hc, pieces, cut_cons, if_pos hc]
      rfl
    · rw [if_neg hc, pieces, cut_cons, if_neg hc]
      rfl

open Utf8

/-- A file may be cut before it is read. -/
theorem splitOn_decode (bytes : List UInt8) :
    (decode bytes).splitOn '\n' = (bytes.splitOn 0x0A).map decode := by
  induction bytes using separatorInduction (0x0A : UInt8) with
  | piece bytes h =>
    have hfeed : '\n' ∉ decode bytes := fun hmem => h (mem_of_mem_decode (by decide) hmem)
    rw [List.splitOn_eq_singleton hfeed, List.splitOn_eq_singleton h]
    rfl
  | join l l' ih ih' =>
    have hfeed : Char.ofNat (0x0A : UInt8).toNat = '\n' := by decide
    rw [decode_append_cons_ascii (by decide), hfeed, List.splitOn_append_cons_self,
      List.splitOn_append_cons_self, ih, ih', List.map_append]

/-- A file is well formed if all of its pieces are. -/
theorem isValid_eq_all (bytes : List UInt8) :
    isValid bytes = (bytes.splitOn 0x0A).all isValid := by
  induction bytes using separatorInduction (0x0A : UInt8) with
  | piece bytes h =>
    rw [List.splitOn_eq_singleton h, List.all_cons, List.all_nil, Bool.and_true]
  | join l l' ih ih' =>
    rw [isValid_append_cons_ascii (by decide), ih, ih', List.splitOn_append_cons_self,
      List.all_append]

/-! ### Lines -/

/-- The bytes of a line without a carriage return at their end. -/
def dropByteReturn (line : List UInt8) : List UInt8 :=
  if line.getLast? = some 0x0D then line.dropLast else line

/-- The lines that pieces make up: only a line that is closed gives up a carriage return, and the
last piece is a line unless it is empty. -/
def linesOfPieces (pieces : List (List UInt8)) : List (List UInt8) :=
  pieces.dropLast.map dropByteReturn ++ pieces.getLast?.toList.filter (!·.isEmpty)

/-- The lines of a file as bytes. -/
def byteLines (bytes : List UInt8) : List (List UInt8) := linesOfPieces (bytes.splitOn 0x0A)

theorem decode_dropByteReturn (line : List UInt8) :
    decode (dropByteReturn line) = dropReturn (decode line) := by
  have hiff : (decode line).getLast? = some '\r' ↔ line.getLast? = some 0x0D :=
    getLast?_decode_eq_some_iff (by decide)
  unfold dropByteReturn dropReturn
  simp only [hiff]
  split_ifs with h
  · obtain ⟨front, rfl⟩ := List.getLast?_eq_some_iff.mp h
    rw [decode_append_cons_ascii (by decide), List.dropLast_concat, decode_nil,
      List.dropLast_concat]
  · rfl

/-- The lines of a file may be told apart before it is read. -/
theorem lines_decode (bytes : List UInt8) :
    lines (decode bytes) = (byteLines bytes).map decode := by
  have hempty : ∀ piece, (decode piece).isEmpty = piece.isEmpty := fun piece => by
    rw [Bool.eq_iff_iff, List.isEmpty_iff, List.isEmpty_iff, decode_eq_nil_iff]
  unfold lines byteLines linesOfPieces
  rw [pieces_eq_splitOn, splitOn_decode, ← List.map_dropLast, List.map_map, List.map_append,
    List.map_map, List.getLast?_map]
  congr 1
  · exact List.map_congr_left fun piece _ => (decode_dropByteReturn piece).symm
  · cases (bytes.splitOn 0x0A).getLast? with
    | none => rfl
    | some piece =>
      simp only [Option.map_some, Option.toList_some, List.filter_singleton, hempty]
      cases piece.isEmpty <;> rfl

/-- A piece is the line at its own place only. -/
theorem getElem?_linesOfPieces_congr {pieces more : List (List UInt8)} {x y : List UInt8} {i : ℕ}
    (hi : i ≠ pieces.length) :
    (linesOfPieces (pieces ++ x :: more))[i]? = (linesOfPieces (pieces ++ y :: more))[i]? := by
  cases more with
  | nil =>
    -- The last piece may be no line at all.
    have hlast : ∀ z, (linesOfPieces (pieces ++ [z]))[i]? = (pieces.map dropByteReturn)[i]? :=
      fun z => by
        rw [linesOfPieces, List.dropLast_concat, List.getLast?_concat]
        rcases Nat.lt_or_gt_of_ne hi with hi | hi
        · exact List.getElem?_append_left (by rwa [List.length_map])
        · have hfilter := List.length_filter_le (!·.isEmpty) (some z).toList
          rw [Option.toList_some, List.length_singleton] at hfilter
          have hlength : (pieces.map dropByteReturn).length = pieces.length := List.length_map _
          have hall : (pieces.map dropByteReturn ++
              (some z).toList.filter (!·.isEmpty)).length ≤ i := by
            rw [List.length_append, hlength, Option.toList_some]
            omega
          rw [List.getElem?_eq_none hall, List.getElem?_eq_none (by omega)]
    rw [hlast, hlast]
  | cons z more =>
    have hsplit : ∀ w, linesOfPieces (pieces ++ w :: z :: more) =
        pieces.map dropByteReturn ++ dropByteReturn w :: linesOfPieces (z :: more) := fun w => by
      rw [linesOfPieces, List.dropLast_append_of_ne_nil (List.cons_ne_nil _ _),
        List.dropLast_cons_cons, List.getLast?_append_of_ne_nil _ (List.cons_ne_nil _ _),
        List.getLast?_cons_cons, List.map_append, List.map_cons, List.append_assoc,
        List.cons_append, linesOfPieces]
    rw [hsplit, hsplit]
    exact getElem?_append_cons_congr (by rwa [List.length_map])

/-- What the bytes of one line are makes no difference to the others. -/
theorem getElem?_byteLines_congr {front middle middle' back : List UInt8} {i : ℕ}
    (h : 0x0A ∉ middle) (h' : 0x0A ∉ middle') (hi : i ≠ front.count 0x0A) :
    (byteLines (front ++ middle ++ back))[i]? = (byteLines (front ++ middle' ++ back))[i]? := by
  obtain ⟨pieces, first, last, more, hlength, hsplit⟩ := exists_splitOn_between 0x0A front back
  rw [← hlength] at hi
  unfold byteLines
  rw [hsplit middle h, hsplit middle' h']
  exact getElem?_linesOfPieces_congr hi

end OsdLatency.Text
