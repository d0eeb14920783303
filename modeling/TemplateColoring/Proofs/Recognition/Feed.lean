import TemplateColoring.Bytes.Ascii
import TemplateColoring.Recognition.Feed

/-!
# Lines of feeds

A content is some whole lines and a last one that is not ended. How it is spread over reads makes
no difference to its lines, as long as every read yields some of it (`Chunks.lines_eq`), and a feed
that fails loses the last line alone (`linesFrom_whole`, `linesFrom_last`).
-/

set_option autoImplicit false

namespace TemplateColoring.Feed

open Ascii

variable {failure : Option String} {front last line r : List UInt8}

/-! ## Reads -/

/-- Reads yield bytes one after the other, and each read some. -/
structure Chunks (reads : List (List UInt8)) (bytes : List UInt8) : Prop where
  /-- The reads yield these bytes and no others. -/
  whole : reads.flatten = bytes
  /-- A read that yields nothing has come to the end. -/
  nonempty : [] ∉ reads

/-- What the reader of lines is given of some reads. -/
theorem Chunks.marks {reads : List (List UInt8)} {bytes : List UInt8} (h : Chunks reads bytes) :
    (reads.flatMap fun bytes => if bytes.isEmpty then [none] else bytes.map some) =
      bytes.map some := by
  obtain ⟨rfl, hne⟩ := h
  induction reads with
  | nil => rfl
  | cons bytes reads ih =>
      have hbytes : ¬ bytes.isEmpty = true := fun hnil =>
        hne (List.isEmpty_iff.mp hnil ▸ List.mem_cons_self)
      rw [List.flatMap_cons, ih fun hmem => hne (List.mem_cons_of_mem bytes hmem), if_neg hbytes,
        List.flatten_cons, List.map_append]

/-- **The lines of a feed depend on what its reads yield together**, and on how it ends. -/
theorem Chunks.lines_eq {f : Feed} {bytes : List UInt8} (h : Chunks f.reads bytes) :
    f.lines = linesFrom f.failure [] (bytes.map some) := by
  rw [Feed.lines, h.marks]

theorem lines_ofBytes (bytes : List UInt8) :
    (ofBytes bytes).lines = linesFrom none [] (bytes.map some) := by
  by_cases hbytes : bytes = []
  · subst hbytes
    rfl
  · refine Chunks.lines_eq ⟨List.append_nil bytes, ?_⟩
    intro hmem
    exact hbytes (List.mem_singleton.mp hmem).symm

/-! ## Lines -/

/-- Bytes that are lines with their newlines. -/
inductive WholeLines : List UInt8 → Prop
  | nil : WholeLines []
  | line {line r : List UInt8} (hline : newline ∉ line) (hr : WholeLines r) :
    WholeLines (line ++ newline :: r)

/-- What holds of a line and stays when a line is put in front holds of every content. -/
theorem lines_induction {p : List UInt8 → Prop} (last : ∀ line, newline ∉ line → p line)
    (line : ∀ line r, newline ∉ line → p r → p (line ++ newline :: r)) (bytes : List UInt8) :
    p bytes := by
  induction h : bytes.length using Nat.strongRecOn generalizing bytes with
  | ind n ih =>
      by_cases hmem : newline ∈ bytes
      · obtain ⟨front, r, rfl, hfront⟩ := List.eq_append_cons_of_mem hmem
        refine line front r hfront (ih r.length ?_ r rfl)
        rw [← h, List.length_append, List.length_cons]
        omega
      · exact last bytes hmem

/-- A content is whole lines and what follows the last newline. -/
theorem exists_wholeLines (bytes : List UInt8) :
    ∃ front last, bytes = front ++ last ∧ WholeLines front ∧ newline ∉ last := by
  induction bytes using lines_induction with
  | last line hline => exact ⟨[], line, rfl, .nil, hline⟩
  | line line r hline ih =>
      obtain ⟨front, last, rfl, hfront, hlast⟩ := ih
      exact ⟨line ++ newline :: front, last, by simp, .line hline hfront, hlast⟩

theorem linesFrom_append (h : newline ∉ r) (marks : List (Option UInt8)) :
    linesFrom failure line (r.map some ++ marks) = linesFrom failure (r.reverse ++ line) marks := by
  induction r generalizing line with
  | nil => rfl
  | cons b r ih =>
      have hb : ¬ (b == newline) = true := fun hb => h (beq_iff_eq.mp hb ▸ List.mem_cons_self)
      rw [List.map_cons, List.cons_append, linesFrom, if_neg hb,
        ih fun hmem => h (List.mem_cons_of_mem b hmem), List.reverse_cons, List.append_assoc]
      rfl

/-- A newline ends a line. -/
theorem linesFrom_line (h : newline ∉ line) (marks : List (Option UInt8)) :
    linesFrom failure [] (line.map some ++ some newline :: marks) =
      .ok (line ++ [newline]) :: linesFrom failure [] marks := by
  rw [linesFrom_append h, linesFrom, if_pos (by decide), List.append_nil, List.reverse_cons,
    List.reverse_reverse]

theorem linesFrom_cons_line (h : newline ∉ line) (r : List UInt8) :
    linesFrom failure [] ((line ++ newline :: r).map some) =
      .ok (line ++ [newline]) :: linesFrom failure [] (r.map some) := by
  rw [List.map_append, List.map_cons, linesFrom_line h]

/-- What follows the last newline is a line if the content ends there, and lost if the feed
fails. -/
theorem linesFrom_last (h : newline ∉ last) : linesFrom failure [] (last.map some) =
    match failure with
    | some reason => [.error reason]
    | none => if last.isEmpty then [] else [.ok last] := by
  rw [← List.append_nil (last.map some), linesFrom_append h, List.append_nil]
  cases failure with
  | some reason => rfl
  | none => simp [linesFrom]

/-- **Whole lines are yielded as they are**, whatever follows them and however the feed ends. -/
theorem linesFrom_whole (h : WholeLines front) (marks : List (Option UInt8)) :
    linesFrom failure [] (front.map some ++ marks) =
      linesFrom none [] (front.map some) ++ linesFrom failure [] marks := by
  induction h with
  | nil => rfl
  | line hline hr ih =>
      rw [linesFrom_cons_line hline, List.map_append, List.append_assoc, List.map_cons,
        List.cons_append, linesFrom_line hline, ih, List.cons_append]

end TemplateColoring.Feed
