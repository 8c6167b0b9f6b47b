import EntityCatalog.Proofs.Text.Cut

/-!
# Names with dots between them

Cutting a text at its dots and joining the pieces with dots undo each other, as long as no piece holds a
dot. So names that are not empty and hold no dot are told from the text in which dots stand between them.
-/

namespace EntityCatalog.Text

/-- Whether a name can stand between dots: it is not empty and holds no dot. -/
def Dotless (name : String) : Prop := name ≠ "" ∧ '.' ∉ name.toList

instance (name : String) : Decidable (Dotless name) := inferInstanceAs (Decidable (_ ∧ _))

/-- Cutting at the dots gives back names that hold none. -/
theorem splitOn_dotted {names : List String} (hnames : ∀ name ∈ names, Dotless name)
    (hne : names ≠ []) :
    (".".intercalate names).toList.splitOn '.' = names.map String.toList := by
  rw [String.toList_intercalate]
  apply List.splitOn_intercalate
  · intro chars hchars
    obtain ⟨name, hname, rfl⟩ := List.mem_map.mp hchars
    exact (hnames name hname).2
  · simpa using hne

/-- Joining the pieces of a text with dots gives the text. -/
theorem dotted_splitOn (text : String) :
    ".".intercalate ((text.toList.splitOn '.').map String.ofList) = text := by
  apply String.toList_injective
  have hpieces : ((text.toList.splitOn '.').map String.ofList).map String.toList =
      text.toList.splitOn '.' := by
    simp [Function.comp_def]
  rw [String.toList_intercalate, hpieces]
  exact List.intercalate_splitOn '.'

/-- Names are known by their characters. -/
theorem map_toList_injective {names names' : List String}
    (h : names.map String.toList = names'.map String.toList) : names = names' :=
  (List.map_inj_right fun _ _ => String.toList_injective).mp h

/-- Only no names at all are written as the empty text. -/
theorem dotted_ne_empty {names : List String} (hnames : ∀ name ∈ names, Dotless name)
    (hne : names ≠ []) : ".".intercalate names ≠ "" := by
  intro hempty
  have hpieces := splitOn_dotted hnames hne
  rw [hempty] at hpieces
  have hsingle : names = [""] := map_toList_injective hpieces.symm
  exact (hnames "" (by simp [hsingle])).1 rfl

/-- Names are told from the text in which dots stand between them. -/
theorem dotted_injective {names names' : List String} (hnames : ∀ name ∈ names, Dotless name)
    (hnames' : ∀ name ∈ names', Dotless name)
    (h : ".".intercalate names = ".".intercalate names') : names = names' := by
  by_cases hne : names = []
  · by_cases hne' : names' = []
    · rw [hne, hne']
    · exact absurd (by rw [← h, hne]; rfl) (dotted_ne_empty hnames' hne')
  · by_cases hne' : names' = []
    · exact absurd (by rw [h, hne']; rfl) (dotted_ne_empty hnames hne)
    · apply map_toList_injective
      rw [← splitOn_dotted hnames hne, ← splitOn_dotted hnames' hne', h]

end EntityCatalog.Text
