import DebianInstaller.Text

/-!
# The words of the shell

What a variable without quotes is split into: at blanks, tabs and newlines, and nothing empty is
left. Blanks around a text make no difference, and a text without blanks is one word. What a
command prints becomes a text without the newlines at its end.
-/

namespace DebianInstaller.Debootstrap

open Text

/-- The words of a variable that is written without quotes. -/
def expand (t : Text) : List Text :=
  (t.splitOnP fun c => c == ' ' || c == '\t' || c == '\n').filter (· ≠ [])

/-- `$(…)`, for the lines that the command prints. -/
def substitution (lines : List Text) : Text :=
  ['\n'].intercalate (lines.rdropWhile (· = []))

theorem expand_eq (t : Text) : expand t = (t.splitOnP isIfs).filter (· ≠ []) := rfl

theorem expand_append_cons (a b : Text) {c : Char} (h : isIfs c = true) :
    expand (a ++ c :: b) = expand a ++ expand b := by
  rw [expand_eq, List.splitOnP_append_cons a b h, List.filter_append]
  rfl

theorem expand_word {w : Text} (h : ∀ c ∈ w, isIfs c = false) (hne : w ≠ []) : expand w = [w] := by
  rw [expand_eq, List.splitOnP_eq_singleton h]
  exact List.filter_eq_self.2 (by simpa using hne)

theorem expand_ifs_append {b : Text} (hb : ∀ c ∈ b, isIfs c = true) (t : Text) :
    expand (b ++ t) = expand t := by
  induction b with
  | nil => rfl
  | cons c b ih =>
      have hcons := expand_append_cons [] (b ++ t) (hb c List.mem_cons_self)
      rw [List.nil_append] at hcons
      rw [List.cons_append, hcons, ih fun c' hc' => hb c' (List.mem_cons_of_mem _ hc')]
      rfl

theorem expand_append_ifs {b : Text} (hb : ∀ c ∈ b, isIfs c = true) (t : Text) :
    expand (t ++ b) = expand t := by
  cases b with
  | nil => rw [List.append_nil]
  | cons c b =>
      obtain ⟨hc, hb⟩ := List.forall_mem_cons.1 hb
      rw [expand_append_cons t b hc]
      have hblank := expand_ifs_append hb []
      rw [List.append_nil] at hblank
      rw [hblank]
      exact List.append_nil _

end DebianInstaller.Debootstrap
