import Asm8.Command.FileTree
import Asm8.Proofs.Tracking

/-!
Where paths lead, and what a write changes.

A path leads to a place if every name on the way is looked up in a folder. What stands at the place
itself does not matter, there may be nothing. A write gives one place a content:

    path ──▶ place      a free place, or a file      the place now holds the content
                        the null device              nothing changes
                        a folder                     refused

Everything else stays as it is, and above all no folder comes or goes. Paths thus lead to the same
places before and after.
-/

namespace Asm8

namespace FileTree

variable {t t' : FileTree} {place p q : List String} {path : String} {c : ByteArray}

/-- A path leads to a place. -/
def Leads (t : FileTree) (path : String) (place : List String) : Prop :=
  path ≠ "" ∧ t.walk path (names path) = .ok place

/-- Two paths lead to one place. -/
def SamePlace (t : FileTree) (path path' : String) : Prop :=
  ∃ place, t.Leads path place ∧ t.Leads path' place

/-- A path leads to the null device, which keeps nothing. -/
def Discards (t : FileTree) (path : String) : Prop :=
  ∃ place, t.Leads path place ∧ t.entryAt? place = some .nullDevice

/-- A place in a folder that is no folder itself. -/
structure Room (t : FileTree) (place : List String) : Prop where
  ne_nil : place ≠ []
  parent : t.entryAt? place.dropLast = some .folder
  not_folder : t.entryAt? place ≠ some .folder

theorem Leads.unique (h : t.Leads path p) (h' : t.Leads path q) : p = q :=
  Except.ok.inj (h.2.symm.trans h'.2)

theorem Leads.discards_iff (h : t.Leads path place) :
    t.Discards path ↔ t.entryAt? place = some .nullDevice := by
  constructor
  · rintro ⟨q, hq, hnull⟩
    rwa [h.unique hq]
  · intro hnull
    exact ⟨place, h, hnull⟩

theorem Leads.samePlace_iff {path' : String} (h : t.Leads path place) :
    t.SamePlace path' path ↔ t.Leads path' place := by
  constructor
  · rintro ⟨q, hq', hq⟩
    rwa [h.unique hq]
  · intro h'
    exact ⟨place, h', h⟩

/-! ### One place changes -/

/-- The places of the entries. -/
def places (t : FileTree) : List (List String) :=
  t.entries.map (·.1)

theorem any_entries_iff : t.entries.any (·.1 = p) ↔ p ∈ t.places := by
  simp [places]

theorem find?_entries_eq_none_iff : t.entries.find? (·.1 = p) = none ↔ p ∉ t.places := by
  rw [← any_entries_iff, List.any_eq_true, List.find?_eq_none]
  simp only [not_exists, not_and]

/-- A place without an entry is a folder if something is below it. -/
theorem entryAt?_of_notMem_places (h : p ∉ t.places) :
    t.entryAt? p = if p = [] ∨ ∃ q ∈ t.places, p <+: q then some .folder else none := by
  have hbelow : t.entries.any (p.isPrefixOf ·.1) ↔ ∃ q ∈ t.places, p <+: q := by
    simp [places, List.any_eq_true, List.isPrefixOf_iff_prefix]
  rw [entryAt?, find?_entries_eq_none_iff.mpr h]
  simp only [hbelow]

/-- Something is below a folder, or it is an entry, or the root. -/
theorem below_of_entryAt?_eq_folder (h : t.entryAt? p = some .folder) :
    p = [] ∨ ∃ q ∈ t.places, p <+: q := by
  by_cases hp : p ∈ t.places
  · exact .inr ⟨p, hp, List.prefix_rfl⟩
  · rw [entryAt?_of_notMem_places hp] at h
    by_contra hno
    rw [if_neg hno] at h
    cases h

theorem mem_places_put : q ∈ (t.put place c).places ↔ q ∈ t.places ∨ q = place := by
  unfold put
  split
  case isTrue hany =>
    -- entries are replaced at their places, and the place is one of them
    have hmem : place ∈ t.places := any_entries_iff.mp hany
    have hsame : (t.entries.map fun e => if e.1 = place then (place, Entry.file c) else e).map
        (·.1) = t.places := by
      rw [List.map_map, places]
      refine List.map_congr_left fun e _ => ?_
      rw [Function.comp_apply]
      split
      case isTrue he => exact he.symm
      case isFalse => rfl
    rw [places, hsame]
    exact ⟨.inl, fun h => h.elim id fun he => he ▸ hmem⟩
  case isFalse => simp [places, or_comm]

/-- The first entry of a place is the one that was put there. -/
theorem find?_replaced {es : List (List String × Entry)} (h : es.any (·.1 = place)) :
    (es.map fun e => if e.1 = place then (place, .file c) else e).find? (·.1 = place) =
      some (place, .file c) := by
  induction es with
  | nil => simp at h
  | cons e es ih =>
    rw [List.map_cons, List.find?_cons]
    by_cases he : e.1 = place
    · simp [he]
    · have hes : es.any (·.1 = place) := by simpa [he] using h
      simpa [he] using ih hes

theorem entryAt?_put_self : entryAt? (t.put place c) place = some (.file c) := by
  have hfind : (t.put place c).entries.find? (·.1 = place) = some (place, .file c) := by
    unfold put
    split
    case isTrue hany => exact find?_replaced hany
    case isFalse hany =>
      have hnone : t.entries.find? (·.1 = place) = none :=
        find?_entries_eq_none_iff.mpr fun hmem => hany (any_entries_iff.mpr hmem)
      simp [List.find?_append, hnone]
  rw [entryAt?, hfind]

/-- What is put at a place does not hide the entry of another one. -/
theorem find?_entries_put (hne : p ≠ place) :
    (t.put place c).entries.find? (·.1 = p) = t.entries.find? (·.1 = p) := by
  unfold put
  split
  · induction t.entries with
    | nil => rfl
    | cons e es ih =>
      rw [List.map_cons, List.find?_cons, List.find?_cons, ih]
      by_cases he : e.1 = place
      · simp [he, Ne.symm hne]
      · simp [he]
  · simp [List.find?_append, Ne.symm hne]

/-- Where there is room for a file, only its own place changes: the folders above it are there. -/
theorem Room.entryAt?_put (h : t.Room place) (hne : p ≠ place) :
    entryAt? (t.put place c) p = t.entryAt? p := by
  by_cases hp : p ∈ t.places
  · obtain ⟨e, he⟩ : ∃ e, t.entries.find? (·.1 = p) = some e := by
      rw [← Option.ne_none_iff_exists', Ne, find?_entries_eq_none_iff]
      exact not_not_intro hp
    rw [entryAt?, entryAt?, find?_entries_put hne, he]
  · have hp' : p ∉ (t.put place c).places := by
      rw [mem_places_put]
      exact fun hor => hor.elim hp hne
    rw [entryAt?_of_notMem_places hp, entryAt?_of_notMem_places hp']
    -- above the new file there is something already
    have habove : p <+: place → p = [] ∨ ∃ q ∈ t.places, p <+: q := by
      intro hpre
      rw [← List.dropLast_concat_getLast h.ne_nil, List.prefix_concat_iff,
        List.dropLast_concat_getLast h.ne_nil] at hpre
      have hdrop : p <+: place.dropLast := hpre.resolve_left hne
      rcases below_of_entryAt?_eq_folder h.parent with hroot | ⟨q, hq, hbelow⟩
      · rw [hroot] at hdrop
        exact .inl (List.prefix_nil.mp hdrop)
      · exact .inr ⟨q, hq, hdrop.trans hbelow⟩
    refine if_congr ⟨?_, ?_⟩ rfl rfl
    · rintro (hroot | ⟨q, hq, hpre⟩)
      · exact .inl hroot
      rcases mem_places_put.mp hq with hq | rfl
      · exact .inr ⟨q, hq, hpre⟩
      · exact habove hpre
    · rintro (hroot | ⟨q, hq, hpre⟩)
      · exact .inl hroot
      · exact .inr ⟨q, mem_places_put.mpr (.inl hq), hpre⟩

/-! ### Paths lead where they led -/

theorem follow_eq_ok_iff {name : String} :
    t.follow p name = .ok q ↔ t.entryAt? p = some .folder ∧ q = enter p name := by
  unfold follow
  cases t.entryAt? p with
  | none => simp
  | some e => cases e <;> simp [eq_comm]

/-- Names are followed alike through trees with the same folders. -/
theorem foldlM_follow_congr
    (hfolders : ∀ p, t'.entryAt? p = some .folder ↔ t.entryAt? p = some .folder) :
    ∀ (ns : List String) (p : List String),
      ns.foldlM t'.follow p = .ok q ↔ ns.foldlM t.follow p = .ok q
  | [], _ => Iff.rfl
  | n :: ns, p => by
    simp only [List.foldlM_cons, bind_ok_iff, follow_eq_ok_iff, hfolders,
      foldlM_follow_congr hfolders ns]

theorem leads_congr (hfolders : ∀ p, t'.entryAt? p = some .folder ↔ t.entryAt? p = some .folder)
    (hhome : t'.home = t.home) : t'.Leads path q ↔ t.Leads path q := by
  have horigin : t'.origin path = t.origin path := by rw [origin, origin, hhome]
  rw [Leads, Leads, walk, walk, horigin, foldlM_follow_congr hfolders]

theorem home_put : (t.put place c).home = t.home := by
  unfold put
  split <;> rfl

theorem Room.leads_put (h : t.Room place) : (t.put place c).Leads path q ↔ t.Leads path q := by
  refine leads_congr (fun p => ?_) home_put
  by_cases hp : p = place
  · rw [hp, entryAt?_put_self]
    simp [h.not_folder]
  · rw [h.entryAt?_put hp]

/-! ### Reading and writing -/

/-- Reading a path gives what stands at its place. -/
theorem read_of_leads (h : t.Leads path place) (hfile : t.entryAt? place = some (.file c)) :
    t.read path = .ok c := by
  rw [read, if_neg h.1, h.2]
  simp [bind, Except.bind, hfile]

/-- The last of some names is not empty, if no empty names have to be dropped behind it. -/
theorem eq_concat_of_dropWhile {ns before : List String} {last : String}
    (h : ns.reverse.dropWhile (· = "") = last :: before) (hend : ns.getLast? ≠ some "") :
    ns = before.reverse ++ [last] ∧ last ≠ "" := by
  rcases List.eq_nil_or_concat ns with rfl | ⟨ms, m, rfl⟩
  · simp at h
  · have hm : m ≠ "" := by simpa using hend
    simp only [List.concat_eq_append, List.reverse_append, List.reverse_singleton,
      List.singleton_append, List.dropWhile_cons, hm, decide_false, Bool.false_eq_true,
      if_false, List.cons.injEq] at h
    obtain ⟨rfl, rfl⟩ := h
    exact ⟨by simp, hm⟩

/-- A plain name stands in the folder where it is looked up. -/
theorem room_of_follow {folder : List String} {last : String} (hlast : last ≠ "")
    (hdots : ¬(last = "." ∨ last = "..")) (hfollow : t.follow folder last = .ok place)
    (hplace : t.entryAt? place ≠ some .folder) : t.Room place := by
  obtain ⟨hfolder, rfl⟩ := follow_eq_ok_iff.mp hfollow
  obtain ⟨hdot, hup⟩ := not_or.mp hdots
  have henter : enter folder last = folder ++ [last] := by
    rw [enter, if_neg (not_or.mpr ⟨hlast, hdot⟩), if_neg hup]
  rw [henter] at hplace ⊢
  exact ⟨List.concat_ne_nil _ _, by rw [List.dropLast_concat, hfolder], hplace⟩

/-- A write that succeeds has room at the place of its path, and fills it unless it is the null
device. -/
theorem write_eq_ok (h : t.write path c = .ok t') :
    ∃ place, t.Leads path place ∧ t.Room place ∧
      t' = if t.entryAt? place = some .nullDevice then t else t.put place c := by
  unfold write at h
  split at h
  · cases h
  case isFalse hpath =>
    dsimp only at h
    split at h
    · cases h
    case h_2 last before hnames =>
      split at h
      · obtain ⟨_, -, herror⟩ := bind_ok_iff.mp h
        cases herror
      case isFalse hdots =>
        obtain ⟨folder, hwalk, h⟩ := bind_ok_iff.mp h
        obtain ⟨place, hfollow, h⟩ := bind_ok_iff.mp h
        split at h
        · cases h
        case isFalse hend =>
          obtain ⟨hns, hlast⟩ := eq_concat_of_dropWhile hnames hend
          have hleads : t.Leads path place := by
            refine ⟨hpath, ?_⟩
            rw [walk, hns, List.foldlM_append]
            exact bind_ok_iff.mpr ⟨folder, hwalk, by simpa using hfollow⟩
          refine ⟨place, hleads, room_of_follow hlast hdots hfollow ?_, ?_⟩
          · intro hfolder
            rw [hfolder] at h
            cases h
          · split at h
            case h_1 => cases h
            case h_2 hnull => rw [if_pos hnull, Except.ok.inj h]
            case h_3 hnull => rw [if_neg hnull, Except.ok.inj h]

/-- What a successful write does: one place changes, and all paths lead where they led. -/
theorem exists_place_of_write (h : t.write path c = .ok t') :
    ∃ place, t.Leads path place ∧
      (∀ path' q, t'.Leads path' q ↔ t.Leads path' q) ∧
      (t.entryAt? place ≠ some .nullDevice → t'.entryAt? place = some (.file c)) ∧
      ∀ p ≠ place, t'.entryAt? p = t.entryAt? p := by
  obtain ⟨place, hleads, hroom, rfl⟩ := write_eq_ok h
  refine ⟨place, hleads, ?_⟩
  split
  case isTrue hnull => exact ⟨fun _ _ => Iff.rfl, fun hno => absurd hnull hno, fun _ _ => rfl⟩
  case isFalse =>
    exact ⟨fun _ _ => hroom.leads_put, fun _ => entryAt?_put_self, fun _ hne => hroom.entryAt?_put hne⟩

/-- A path that can be read leads to a file or to the null device. -/
theorem exists_leads_of_read (h : t.read path = .ok c) :
    ∃ place, t.Leads path place ∧
      (t.entryAt? place = some (.file c) ∨ t.entryAt? place = some .nullDevice ∧ c = .empty) := by
  unfold read at h
  split at h
  · cases h
  case isFalse hpath =>
    obtain ⟨place, hwalk, h⟩ := bind_ok_iff.mp h
    refine ⟨place, ⟨hpath, hwalk⟩, ?_⟩
    split at h
    · cases h
    · cases h
    case h_3 content hfile => exact .inl (by rw [hfile, Except.ok.inj h])
    case h_4 hnull => exact .inr ⟨hnull, (Except.ok.inj h).symm⟩

/-- Reading depends on what stands at the place of the path only. -/
theorem read_congr (hleads : ∀ q, t'.Leads path q ↔ t.Leads path q) (hplace : t.Leads path place)
    (hentry : t'.entryAt? place = t.entryAt? place) (h : t.read path = .ok c) :
    t'.read path = .ok c := by
  obtain ⟨q, hq, hcontent⟩ := exists_leads_of_read h
  obtain rfl := hplace.unique hq
  rw [read, if_neg hplace.1, ((hleads place).mpr hplace).2]
  rcases hcontent with hfile | ⟨hnull, rfl⟩
  · simp [bind, Except.bind, hentry, hfile]
  · simp [bind, Except.bind, hentry, hnull]

end FileTree

/-! ### Files in general -/

/-- What a command may rely on. That `files` hold a path means that it leads to a file or to a place
for one, and not to a device that keeps nothing. -/
class LawfulFiles (F : Type) [Files F] where
  Holds : F → String → Prop
  SameFile : F → String → String → Prop
  /-- What was written can be read. -/
  read_write {files files' : F} {path : String} {content : ByteArray} :
    Holds files path → Files.write files path content = (.ok (), files') →
      Files.read files' path = .ok content
  /-- Other files keep their content. -/
  read_write_other {files files' : F} {path other : String} {content kept : ByteArray} :
    ¬SameFile files path other → Files.write files path content = (.ok (), files') →
      Files.read files other = .ok kept → Files.read files' other = .ok kept
  /-- No two paths come to lead to one file. -/
  sameFile_of_write {files files' : F} {path p q : String} {content : ByteArray} :
    Files.write files path content = (.ok (), files') → SameFile files' p q → SameFile files p q

theorem FileTree.files_write_eq_ok {t t' : FileTree} {path : String} {c : ByteArray}
    (h : Files.write t path c = (.ok (), t')) : t.write path c = .ok t' := by
  simp only [Files.write] at h
  cases hwrite : t.write path c with
  | error fault => simp [hwrite] at h
  | ok t₁ => simpa [hwrite] using h

instance : LawfulFiles FileTree where
  Holds t path := ¬t.Discards path
  SameFile := FileTree.SamePlace
  read_write := by
    intro t t' path c hholds hwrite
    obtain ⟨place, hleads, hsame, hfile, -⟩ :=
      FileTree.exists_place_of_write (FileTree.files_write_eq_ok hwrite)
    have hplace := hfile fun hnull => hholds (hleads.discards_iff.mpr hnull)
    exact FileTree.read_of_leads ((hsame _ _).mpr hleads) hplace
  read_write_other := by
    intro t t' path other c kept hother hwrite hread
    obtain ⟨place, hleads, hsame, -, hframe⟩ :=
      FileTree.exists_place_of_write (FileTree.files_write_eq_ok hwrite)
    obtain ⟨q, hq, -⟩ := FileTree.exists_leads_of_read hread
    have hne : q ≠ place := by
      rintro rfl
      exact hother ⟨q, hleads, hq⟩
    exact FileTree.read_congr (hsame other) hq (hframe q hne) hread
  sameFile_of_write := by
    rintro t t' path p q c hwrite ⟨place, hp, hq⟩
    obtain ⟨-, -, hsame, -⟩ := FileTree.exists_place_of_write (FileTree.files_write_eq_ok hwrite)
    exact ⟨place, (hsame _ _).mp hp, (hsame _ _).mp hq⟩

end Asm8
