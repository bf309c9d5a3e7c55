/-
  A text as a sequence of lines, each with its terminator `d`.

  * `lines_flatten`: lines written one after the other are read back as they are.
-/
import Mathlib.Data.List.Basic

namespace Lines

universe u
variable {α : Type u} {d : α}

/-- A line: its terminator stands at its end, and nowhere else. -/
def IsLine (d : α) (r : List α) : Prop := ∃ body, d ∉ body ∧ r = body ++ [d]

/-- The lines of a text; the last one may have no terminator. -/
def lines [DecidableEq α] (d : α) : List α → List (List α)
  | [] => []
  | a :: s =>
    if a = d then [a] :: lines d s
    else
      match lines d s with
      | [] => [[a]]
      | l :: ls => (a :: l) :: ls

theorem isLine_iff {r : List α} : IsLine d r ↔ r.getLast? = some d ∧ d ∉ r.dropLast := by
  constructor
  · rintro ⟨body, hbody, rfl⟩
    rw [List.getLast?_concat, List.dropLast_concat]
    exact ⟨rfl, hbody⟩
  · rintro ⟨hlast, hbody⟩
    exact ⟨r.dropLast, hbody, (List.dropLast_append_getLast? d hlast).symm⟩

theorem lines_append [DecidableEq α] {r : List α} (h : IsLine d r) (s : List α) :
    lines d (r ++ s) = r :: lines d s := by
  obtain ⟨body, hbody, rfl⟩ := h
  induction body with
  | nil => simp [lines]
  | cons a body ih =>
    rw [List.mem_cons, not_or] at hbody
    have hrest := ih hbody.2
    simp only [List.cons_append, lines, if_neg (Ne.symm hbody.1), hrest]

theorem lines_flatten [DecidableEq α] {rs : List (List α)} (h : ∀ r ∈ rs, IsLine d r) :
    lines d rs.flatten = rs := by
  induction rs with
  | nil => rfl
  | cons r rs ih =>
    rw [List.flatten_cons, lines_append (h r List.mem_cons_self),
      ih fun r hr => h r (List.mem_cons_of_mem _ hr)]

end Lines
