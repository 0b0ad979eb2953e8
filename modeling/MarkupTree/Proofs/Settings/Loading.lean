-- Which file decides the settings. Without a path it is the one in the nearest
-- folder that has one, be it of use or not, and loading goes as if its path had
-- been asked for. What comes of a path hangs on nothing but what stands there.
import MarkupTree.Proofs.Settings.Fields
import MarkupTree.Proofs.Text.Utf8

namespace MarkupTree

namespace Settings

open Utf8 (IsUtf8)

/-! ## One file -/

/-- What comes of loading a path at which the entry is found. -/
inductive Outcome (path : Path) : Option Entry → Except LoadError Settings → Prop
  | missing : Outcome path none (.error (.notFound path))
  | folder : Outcome path (some .folder) (.error .unreadable)
  | notUtf8 {bytes : List UInt8} {value : Option Value} (h : ¬ IsUtf8 bytes) :
      Outcome path (some (.file bytes value)) (.error .unreadable)
  /-- The notation is not valid. -/
  | noValue {bytes : List UInt8} (h : IsUtf8 bytes) :
      Outcome path (some (.file bytes none)) (.error .invalid)
  | unfit {bytes : List UInt8} {v : Value} (h : IsUtf8 bytes) (hv : v.IsUnfit) :
      Outcome path (some (.file bytes (some v))) (.error .invalid)
  | tooWide {bytes : List UInt8} {v : Value} {s : Settings} (h : IsUtf8 bytes)
      (hv : ¬ v.IsUnfit) (hs : s.Reads v) (hwidth : 1000 < s.width) :
      Outcome path (some (.file bytes (some v))) (.error .tooWide)
  | loaded {bytes : List UInt8} {v : Value} {s : Settings} (h : IsUtf8 bytes)
      (hv : ¬ v.IsUnfit) (hs : s.Reads v) (hwidth : s.width ≤ 1000)
      (hpath : s.path = some path) : Outcome path (some (.file bytes (some v))) (.ok s)

/-- The settings of a value that is not unfit are found by reading it. -/
theorem exists_reads {v : Value} (hv : ¬ v.IsUnfit) : ∃ s, ofValue? v = some s ∧ s.Reads v := by
  rcases h : ofValue? v with _ | s
  · exact absurd (ofValue?_eq_none_iff.mp h) hv
  · exact ⟨s, rfl, reads_of_ofValue? h⟩

/-- Something comes of every path. -/
theorem exists_outcome (path : Path) (found : Option Entry) : ∃ r, Outcome path found r := by
  rcases found with _ | entry
  · exact ⟨_, .missing⟩
  · cases entry with
    | folder => exact ⟨_, .folder⟩
    | file bytes value =>
      by_cases hutf : IsUtf8 bytes
      · rcases value with _ | v
        · exact ⟨_, .noValue hutf⟩
        · by_cases hv : v.IsUnfit
          · exact ⟨_, .unfit hutf hv⟩
          · obtain ⟨s, -, hs⟩ := exists_reads hv
            rcases Nat.lt_or_ge 1000 s.width with hwidth | hwidth
            · exact ⟨_, .tooWide hutf hv hs hwidth⟩
            · exact ⟨.ok { s with path := some path }, .loaded hutf hv ⟨hs.1, hs.2⟩ hwidth rfl⟩
      · exact ⟨_, .notUtf8 hutf⟩

/-- What comes of a path is what loading gives. -/
theorem Outcome.loadFile_eq {d : Disk} {path : Path} {r : Except LoadError Settings}
    (h : Outcome path (d.entry? path) r) : loadFile d path = r := by
  rw [loadFile]
  generalize d.entry? path = found at h
  cases h with
  | missing => rfl
  | folder => rfl
  | notUtf8 h =>
    obtain ⟨fault, hfault⟩ := Utf8.exists_fault h
    simp only [ofEntry, hfault]
  | noValue h =>
    obtain ⟨t, rfl⟩ := h
    simp only [ofEntry, Utf8.decode_encode, Option.bind_none]
  | unfit h hv =>
    obtain ⟨t, rfl⟩ := h
    simp only [ofEntry, Utf8.decode_encode, Option.bind_some, ofValue?_eq_none_iff.mpr hv]
  | tooWide h hv hs hwidth =>
    obtain ⟨t, rfl⟩ := h
    obtain ⟨s', hread, hs'⟩ := exists_reads hv
    obtain ⟨-, hsame⟩ := hs'.unique hs
    simp only [ofEntry, Utf8.decode_encode, Option.bind_some, hread, hsame]
    exact if_pos hwidth
  | loaded h hv hs hwidth hpath =>
    obtain ⟨t, rfl⟩ := h
    obtain ⟨s', hread, hs'⟩ := exists_reads hv
    obtain ⟨hoptions, hsame⟩ := hs'.unique hs
    simp only [ofEntry, Utf8.decode_encode, Option.bind_some, hread, hsame, hoptions, ← hpath]
    exact if_neg (Nat.not_lt.mpr hwidth)

theorem loadFile_eq_iff {d : Disk} {path : Path} {r : Except LoadError Settings} :
    loadFile d path = r ↔ Outcome path (d.entry? path) r := by
  refine ⟨?_, Outcome.loadFile_eq⟩
  rintro rfl
  obtain ⟨r, hr⟩ := exists_outcome path (d.entry? path)
  rwa [hr.loadFile_eq]

/-- What is loaded has the path and is read from what stands there. -/
theorem Outcome.of_ok {path : Path} {found : Option Entry} {s : Settings}
    (h : Outcome path found (.ok s)) :
    s.path = some path ∧ ∃ bytes v, found = some (.file bytes (some v)) ∧ s.Reads v := by
  cases h with
  | loaded _ _ hs _ hpath => exact ⟨hpath, _, _, rfl, hs⟩

/-! ## The nearest file -/

/-- The folder, given from its innermost name outward, is the place or lies
around it. Of the folders above the top nothing is known. -/
def Place.LiesIn (p : Place) (folder : List Text) : Prop :=
  ∃ names, p = .inside names ∧ folder <:+ names

/-- The path of the settings file of a folder. -/
def fileIn (folder : List Text) : Path := folder.reverse ++ ["mdtree.toml".toList]

/-- Of the folders around the place that have an entry by the name of a settings
file, none is nearer. -/
structure IsNearest (d : Disk) (p : Place) (folder : List Text) : Prop where
  around : p.LiesIn folder
  present : ∃ entry, d.entry? (fileIn folder) = some entry
  nearest : ∀ other entry, p.LiesIn other → d.entry? (fileIn other) = some entry → other <:+ folder

variable {d : Disk} {p : Place}

theorem IsNearest.unique {folder folder' : List Text} (h : IsNearest d p folder)
    (h' : IsNearest d p folder') : folder = folder' := by
  obtain ⟨entry, hentry⟩ := h.present
  obtain ⟨entry', hentry'⟩ := h'.present
  have hle := h'.nearest folder entry h.around hentry
  have hge := h.nearest folder' entry' h'.around hentry'
  exact hle.eq_of_length (Nat.le_antisymm hle.length_le hge.length_le)

theorem IsNearest.not_all_none {folder : List Text} (h : IsNearest d p folder) :
    ¬ ∀ other, p.LiesIn other → d.entry? (fileIn other) = none := by
  intro hnone
  obtain ⟨entry, hentry⟩ := h.present
  rw [hnone folder h.around] at hentry
  cases hentry

section

variable {names : List Text}

/-- A folder that has a settings file is the nearest one to itself. -/
theorem isNearest_self {entry : Entry} (h : d.entry? (fileIn names) = some entry) :
    IsNearest d (.inside names) names := by
  refine ⟨⟨names, rfl, List.suffix_rfl⟩, ⟨entry, h⟩, ?_⟩
  rintro other _ ⟨_, ⟨⟩, hother⟩ -
  exact hother

/-- Where a folder has none, the nearest one to it is that of the folder around it. -/
theorem IsNearest.inner {folder : List Text} {name : Text} (h : IsNearest d (.inside names) folder)
    (hnone : d.entry? (fileIn (name :: names)) = none) :
    IsNearest d (.inside (name :: names)) folder := by
  obtain ⟨_, ⟨⟩, haround⟩ := h.around
  refine ⟨⟨_, rfl, haround.trans (List.suffix_cons name names)⟩, h.present, ?_⟩
  rintro other entry ⟨_, ⟨⟩, hother⟩ hentry
  rcases List.suffix_cons_iff.mp hother with rfl | hother
  · rw [hnone] at hentry
    cases hentry
  · exact h.nearest other entry ⟨names, rfl, hother⟩ hentry

/-- The search takes the settings file of the folder where it starts. -/
theorem nearestInside_of_some {entry : Entry} (h : d.entry? (fileIn names) = some entry) :
    nearestInside d names = some (fileIn names) := by
  have hcontains : d.contains (fileIn names) = true := by rw [Disk.contains, h]; rfl
  cases names with
  | nil => exact if_pos hcontains
  | cons name outer => exact if_pos hcontains

theorem not_contains_of_none (h : d.entry? (fileIn names) = none) :
    ¬ d.contains (fileIn names) = true := by
  rw [Disk.contains, h]
  exact Bool.false_ne_true

end

/-- The search ends at the nearest folder that has a settings file, or no folder
on the way to the top has one. -/
theorem nearestInside_cases (d : Disk) (names : List Text) :
    (∃ folder, IsNearest d (.inside names) folder ∧
        nearestInside d names = some (fileIn folder)) ∨
      ((∀ folder, folder <:+ names → d.entry? (fileIn folder) = none) ∧
        nearestInside d names = none) := by
  induction names with
  | nil =>
    rcases h : d.entry? (fileIn []) with _ | entry
    · refine Or.inr ⟨fun folder hfolder => ?_, if_neg (not_contains_of_none h)⟩
      rwa [List.suffix_nil.mp hfolder]
    · exact Or.inl ⟨[], isNearest_self h, nearestInside_of_some h⟩
  | cons name outer ih =>
    rcases h : d.entry? (fileIn (name :: outer)) with _ | entry
    · have hstep : nearestInside d (name :: outer) = nearestInside d outer :=
        if_neg (not_contains_of_none h)
      rw [hstep]
      rcases ih with ⟨folder, hnearest, hfound⟩ | ⟨hnone, hfound⟩
      · exact Or.inl ⟨folder, hnearest.inner h, hfound⟩
      · refine Or.inr ⟨fun folder hfolder => ?_, hfound⟩
        rcases List.suffix_cons_iff.mp hfolder with rfl | hfolder
        · exact h
        · exact hnone folder hfolder
    · exact Or.inl ⟨name :: outer, isNearest_self h, nearestInside_of_some h⟩

/-- The same search from any place. -/
theorem nearest_cases (d : Disk) (p : Place) :
    (∃ folder, IsNearest d p folder ∧ nearest d p = some (fileIn folder)) ∨
      ((∀ folder, p.LiesIn folder → d.entry? (fileIn folder) = none) ∧ nearest d p = none) := by
  cases p with
  | inside names =>
    refine (nearestInside_cases d names).imp_right fun h => ⟨?_, h.2⟩
    rintro folder ⟨_, ⟨⟩, hfolder⟩
    exact h.1 folder hfolder
  | above | elsewhere => exact Or.inr ⟨fun _ ⟨_, h, _⟩ => (nomatch h), rfl⟩

/-! ## The law -/

/-- How the settings for work at a place are decided. -/
structure Decided (d : Disk) (p : Place) : Prop where
  asked : ∀ path r, load d p (some path) = r ↔ Outcome path (d.entry? path) r
  /-- There is a nearest settings file, or there is none. -/
  searched : (∃ folder, IsNearest d p folder) ∨
    ∀ folder, p.LiesIn folder → d.entry? (fileIn folder) = none
  nearest : ∀ folder, IsNearest d p folder → load d p none = load d p (some (fileIn folder))
  /-- The nearest file is never passed over: what is loaded without a path is
  what that file gives. -/
  kept : ∀ folder s, IsNearest d p folder → load d p none = .ok s →
    s.path = some (fileIn folder) ∧
      ∃ bytes v, d.entry? (fileIn folder) = some (.file bytes (some v)) ∧ s.Reads v
  /-- Nothing else on the disk has a say. -/
  alone : ∀ folder d', IsNearest d p folder → IsNearest d' p folder →
    d'.entry? (fileIn folder) = d.entry? (fileIn folder) → load d' p none = load d p none
  usual : (∀ folder, p.LiesIn folder → d.entry? (fileIn folder) = none) →
    load d p none = .ok { options := {}, width := 80, path := none }

theorem load_of_isNearest {folder : List Text} (h : IsNearest d p folder) :
    load d p none = loadFile d (fileIn folder) := by
  rcases nearest_cases d p with ⟨other, hother, hfound⟩ | ⟨hnone, -⟩
  · rw [load, hfound, h.unique hother]
  · exact absurd hnone h.not_all_none

/-- One file decides, on every disk and for work at every place. -/
theorem one_file_decides (d : Disk) (p : Place) : Decided d p where
  asked _ _ := loadFile_eq_iff
  searched := (nearest_cases d p).imp (fun ⟨folder, h, _⟩ => ⟨folder, h⟩) And.left
  nearest _ := load_of_isNearest
  kept folder s h hs := by
    rw [load_of_isNearest h, loadFile_eq_iff] at hs
    exact hs.of_ok
  alone folder d' h h' hsame := by
    rw [load_of_isNearest h, load_of_isNearest h', loadFile, loadFile, hsame]
  usual hnone := by
    rcases nearest_cases d p with ⟨folder, h, -⟩ | ⟨-, hfound⟩
    · exact absurd hnone h.not_all_none
    · rw [load, hfound]
      rfl

/-- A folder by the name of a settings file is not passed over. -/
example :
    let a := "a".toList
    let d : Disk := ⟨[(.inside [a], .folder), (.inside [fileName, a], .folder),
      (.inside [fileName], .file [] (some (.table [])))]⟩
    load d (.inside [a]) none = .error .unreadable ∧
      load d .top none = .ok { path := some [fileName] } := ⟨rfl, rfl⟩

end Settings

end MarkupTree
