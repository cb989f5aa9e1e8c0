import WhileSmt.Proofs.Text
import WhileSmt.Ssa.Basic

/-!
The texts of versions. The number of a version stands after the last underscore of its text, unless
the version is marked, so unmarked versions have different texts.

Main statement: unmarked versions are determined by their texts (`Version.eq_of_text_eq`).
-/

namespace WhileSmt

namespace Version

theorem toList_text {v : Version} (h : v.marker = none) :
    v.text.toList = v.base.toList ++ '_' :: Text.digits v.number := by
  simp [text, h, Text.natural]

/-- Unmarked versions with the same text are the same. -/
theorem eq_of_text_eq {v w : Version} (hv : v.marker = none) (hw : w.marker = none)
    (h : v.text = w.text) : v = w := by
  have hnot : ∀ n, '_' ∉ Text.digits n := fun n hmem =>
    absurd (Text.isDigit_of_mem_digits hmem) (by decide)
  have hlist := congrArg String.toList h
  rw [toList_text hv, toList_text hw] at hlist
  obtain ⟨hbase, hnumber⟩ := Text.eq_of_append_last (hnot _) (hnot _) hlist
  obtain ⟨base, number, marker⟩ := v
  obtain ⟨base', number', marker'⟩ := w
  cases hv
  cases hw
  rw [Version.mk.injEq]
  exact ⟨String.toList_injective hbase, Text.digits_injective hnumber, rfl⟩

end Version

end WhileSmt
