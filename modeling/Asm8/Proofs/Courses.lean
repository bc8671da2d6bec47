import Asm8.Command.Run
import Asm8.Proofs.Assembled
import Asm8.Proofs.Places

/-!
How the command runs and ends.

The stages are taken in order, and the first one that fails ends the command. A run takes one of
seven courses, which the files and the options decide:

    table ──▶ source ──▶ assemble ──▶ write image ──▶ write JSON ──▶ success   0
      │          │           │             │              │
      │ unread   │ unread    │ refused     │ refused      │ refused ─────────▶ failure   1
      │ refused ─────────────────────────────────────────────────────────────▶ fatal     2

Up to the first write the files stay as they are. What is printed on the way decides nothing, so
that `Does` says what a computation does with the files and leaves it out.
-/

namespace Asm8

namespace Command

variable {o : Options} {F : Type} {files files₁ files₂ : F} {α β : Type}

/-! ### Computations on files -/

/-- Whatever has been printed, a computation ends with `r` and turns `files` into `files'`. -/
def Does (x : ExceptT Exit (AtDesk F) α) (files : F) (r : Except Exit α) (files' : F) :
    Prop :=
  ∀ printed, ∃ printed', x.run.run ⟨files, printed⟩ = (r, ⟨files', printed'⟩)

theorem does_pure (a : α) : Does (pure a) files (.ok a) files :=
  fun printed => ⟨printed, rfl⟩

/-- The second computation starts with what the first one leaves. -/
theorem Does.bind {x : ExceptT Exit (AtDesk F) α} {f : α → ExceptT Exit (AtDesk F) β} {a : α}
    {r : Except Exit β} (hx : Does x files (.ok a) files₁) (hf : Does (f a) files₁ r files₂) :
    Does (x >>= f) files r files₂ := by
  intro printed
  obtain ⟨printed₁, hx⟩ := hx printed
  obtain ⟨printed₂, hf⟩ := hf printed₁
  refine ⟨printed₂, ?_⟩
  rw [ExceptT.run_bind, StateT.run_bind, hx]
  exact hf

/-- An end is final. -/
theorem Does.bind_error {x : ExceptT Exit (AtDesk F) α} {f : α → ExceptT Exit (AtDesk F) β} {exit : Exit}
    (hx : Does x files (.error exit) files₁) : Does (x >>= f) files (.error exit) files₁ := by
  intro printed
  obtain ⟨printed₁, hx⟩ := hx printed
  refine ⟨printed₁, ?_⟩
  rw [ExceptT.run_bind, StateT.run_bind, hx]
  rfl

variable [Files F]

/-! ### What is asked for, and what there is -/

/-- The table to assemble with: the one in the given file, or the built-in one. -/
def Chosen (o : Options) (files : F) (t : Table) : Prop :=
  match o.table with
  | none => t = Table.builtin
  | some path => ∃ text, textOf (Files.read files path) = .ok text ∧ Table.read text = .ok t

/-- The given table is a text, but no table. -/
def TableRefused (o : Options) (files : F) : Prop :=
  ∃ path text e, o.table = some path ∧ textOf (Files.read files path) = .ok text ∧
    Table.read text = .error e

/-- There is a table and a source, and the source assembles. -/
def Assembles (o : Options) (files : F) (a : Assembly) : Prop :=
  ∃ t text, Chosen o files t ∧ textOf (Files.read files o.input) = .ok text ∧
    assemble t (Text.withCRLF text) = .ok a

/-- The bytes of the output file. -/
def imageBytes (a : Assembly) : ByteArray :=
  ⟨a.image.ram.toArray⟩

/-- All writes that are asked for succeed, and lead from one tree to the other. -/
def Delivers (o : Options) (a : Assembly) (files files' : F) : Prop :=
  ∃ files₁, Files.write files o.output (imageBytes a) = (.ok (), files₁) ∧
    match o.json with
    | none => files' = files₁
    | some path => Files.write files₁ path a.json.toUTF8 = (.ok (), files')

/-- A way through the stages, with its end and the files it leaves. -/
inductive Course (o : Options) (files : F) : Exit → F → Prop
  | tableUnread {path : String} {fault : FileFault} (htable : o.table = some path)
      (hread : textOf (Files.read files path) = .error fault) : Course o files .failure files
  | tableRefused (h : TableRefused o files) : Course o files .fatal files
  | sourceUnread {t : Table} {fault : FileFault} (hchosen : Chosen o files t)
      (hread : textOf (Files.read files o.input) = .error fault) : Course o files .failure files
  | sourceRefused {t : Table} {text : String} {d : Diagnostic} (hchosen : Chosen o files t)
      (hread : textOf (Files.read files o.input) = .ok text)
      (hassemble : assemble t (Text.withCRLF text) = .error d) : Course o files .failure files
  | imageUnwritten {a : Assembly} {fault : FileFault} {files₁ : F} (h : Assembles o files a)
      (hwrite : Files.write files o.output (imageBytes a) = (.error fault, files₁)) :
      Course o files .failure files₁
  | jsonUnwritten {a : Assembly} {files₁ files₂ : F} {path : String} {fault : FileFault}
      (h : Assembles o files a)
      (hwrite : Files.write files o.output (imageBytes a) = (.ok (), files₁))
      (hjson : o.json = some path)
      (hrefused : Files.write files₁ path a.json.toUTF8 = (.error fault, files₂)) :
      Course o files .failure files₂
  | success {a : Assembly} {files' : F} (h : Assembles o files a)
      (hdelivers : Delivers o a files files') : Course o files .success files'

/-- Some course can always be taken. -/
theorem exists_course (o : Options) (files : F) :
    ∃ exit files', Course o files exit files' := by
  have htable : (∃ t, Chosen o files t) ∨ Course o files .fatal files ∨
      Course o files .failure files := by
    unfold Chosen
    cases ht : o.table with
    | none => exact .inl ⟨_, rfl⟩
    | some path =>
      cases hread : textOf (Files.read files path) with
      | error fault => exact .inr (.inr (.tableUnread ht hread))
      | ok text =>
        cases hparse : Table.read text with
        | error e => exact .inr (.inl (.tableRefused ⟨path, text, e, ht, hread, hparse⟩))
        | ok t => exact .inl ⟨t, text, hread, hparse⟩
  obtain ⟨t, hchosen⟩ | hfatal | hfailure := htable
  case inr.inl => exact ⟨_, _, hfatal⟩
  case inr.inr => exact ⟨_, _, hfailure⟩
  cases hread : textOf (Files.read files o.input) with
  | error fault => exact ⟨_, _, .sourceUnread hchosen hread⟩
  | ok text =>
    cases hassemble : assemble t (Text.withCRLF text) with
    | error d => exact ⟨_, _, .sourceRefused hchosen hread hassemble⟩
    | ok a =>
      have h : Assembles o files a := ⟨t, text, hchosen, hread, hassemble⟩
      rcases hwrite : Files.write files o.output (imageBytes a) with ⟨done, files₁⟩
      cases done with
      | error fault => exact ⟨_, _, .imageUnwritten h hwrite⟩
      | ok =>
        cases hjson : o.json with
        | none => exact ⟨_, _, .success h ⟨files₁, hwrite, by rw [hjson]⟩⟩
        | some path =>
          rcases hsecond : Files.write files₁ path a.json.toUTF8 with ⟨done, files₂⟩
          cases done with
          | error fault => exact ⟨_, _, .jsonUnwritten h hwrite hjson hsecond⟩
          | ok =>
            have hdelivers : Delivers o a files files₂ := ⟨files₁, hwrite, by rwa [hjson]⟩
            exact ⟨_, _, .success h hdelivers⟩

/-! ### The stages one by one -/

theorem does_put (s : String) : Does (put s) files (.ok ()) files :=
  fun printed => ⟨printed ++ s, rfl⟩

theorem does_say (s : String) : Does (say s) files (.ok ()) files :=
  does_put _

theorem does_quit (exit : Exit) (s : String) :
    Does (quit exit s : ExceptT Exit (AtDesk F) α) files (.error exit) files :=
  (does_put s).bind fun printed => ⟨printed, rfl⟩

theorem does_readFile (path : String) :
    Does (ExceptT.lift (Host.readFile path)) files (.ok (Files.read files path)) files :=
  fun printed => ⟨printed, rfl⟩

theorem does_load {path text : String} (h : textOf (Files.read files path) = .ok text) :
    Does (load path) files (.ok text) files := by
  refine (does_readFile path).bind ?_
  rw [h]
  exact does_pure text

theorem does_load_error {path : String} {fault : FileFault}
    (h : textOf (Files.read files path) = .error fault) :
    Does (load path) files (.error .failure) files := by
  refine (does_readFile path).bind ?_
  rw [h]
  exact does_quit _ _

theorem does_writeFile {path : String} {content : ByteArray} {done : Except FileFault Unit}
    (h : Files.write files path content = (done, files₁)) :
    Does (ExceptT.lift (Host.writeFile path content)) files (.ok done) files₁ := by
  intro printed
  refine ⟨printed, ?_⟩
  simp only [Host.writeFile, ExceptT.run_lift, StateT.run_map, StateT.run_modifyGet, h]
  rfl

theorem does_store {path : String} {content : ByteArray}
    (h : Files.write files path content = (.ok (), files₁)) :
    Does (store path content) files (.ok ()) files₁ :=
  (does_say _).bind ((does_writeFile h).bind (does_pure ()))

theorem does_store_error {path : String} {content : ByteArray} {fault : FileFault}
    (h : Files.write files path content = (.error fault, files₁)) :
    Does (store path content) files (.error .failure) files₁ :=
  (does_say _).bind ((does_writeFile h).bind (does_quit _ _))

theorem does_loadTable {t : Table} (h : Chosen o files t) :
    Does (loadTable o.table) files (.ok t) files := by
  refine (does_say _).bind ?_
  unfold Chosen at h
  cases htable : o.table with
  | none =>
    rw [htable] at h
    rw [h]
    exact does_pure _
  | some path =>
    rw [htable] at h
    obtain ⟨text, hread, hparse⟩ := h
    refine (does_say _).bind ((does_load hread).bind ?_)
    rw [hparse]
    exact does_pure t

theorem does_loadTable_unread {path : String} {fault : FileFault} (htable : o.table = some path)
    (hread : textOf (Files.read files path) = .error fault) :
    Does (loadTable o.table) files (.error .failure) files := by
  rw [htable]
  exact (does_say _).bind ((does_say _).bind (does_load_error hread).bind_error)

theorem does_loadTable_refused (h : TableRefused o files) :
    Does (loadTable o.table) files (.error .fatal) files := by
  obtain ⟨path, text, e, htable, hread, hparse⟩ := h
  rw [htable]
  refine (does_say _).bind ((does_say _).bind ((does_load hread).bind ?_))
  rw [hparse]
  exact does_quit _ _

theorem does_loadSource {path text : String} (h : textOf (Files.read files path) = .ok text) :
    Does (loadSource path) files (.ok (Text.withCRLF text)) files :=
  (does_say _).bind ((does_say _).bind ((does_load h).bind (does_pure _)))

theorem does_loadSource_unread {path : String} {fault : FileFault}
    (h : textOf (Files.read files path) = .error fault) :
    Does (loadSource path) files (.error .failure) files :=
  (does_say _).bind ((does_say _).bind (does_load_error h).bind_error)

theorem does_check {t : Table} {path source : String} {a : Assembly}
    (h : assemble t source = .ok a) : Does (check t path source) files (.ok a) files := by
  refine (does_say _).bind ?_
  rw [h]
  exact does_pure a

theorem does_check_refused {t : Table} {path source : String} {d : Diagnostic}
    (h : assemble t source = .error d) :
    Does (check t path source) files (.error .failure) files := by
  refine (does_say _).bind ?_
  rw [h]
  exact does_quit _ _

theorem does_deliver {a : Assembly} (h : Delivers o a files files₁) :
    Does (deliver o a) files (.ok ()) files₁ := by
  obtain ⟨files₂, himage, hjson⟩ := h
  refine (does_say _).bind ((does_store himage).bind ?_)
  split
  case h_1 hnone =>
    rw [hnone] at hjson
    rw [hjson]
    exact does_pure ()
  case h_2 path hsome =>
    rw [hsome] at hjson
    exact does_store hjson

theorem does_deliver_image_refused {a : Assembly} {fault : FileFault}
    (h : Files.write files o.output (imageBytes a) = (.error fault, files₁)) :
    Does (deliver o a) files (.error .failure) files₁ :=
  (does_say _).bind (does_store_error h).bind_error

theorem does_deliver_json_refused {a : Assembly} {path : String} {fault : FileFault}
    (himage : Files.write files o.output (imageBytes a) = (.ok (), files₁))
    (hjson : o.json = some path)
    (h : Files.write files₁ path a.json.toUTF8 = (.error fault, files₂)) :
    Does (deliver o a) files (.error .failure) files₂ := by
  refine (does_say _).bind ((does_store himage).bind ?_)
  rw [hjson]
  exact does_store_error h

/-- With an assembly at hand only the writes can still fail. -/
theorem Assembles.does_stages {a : Assembly} {r : Except Exit Unit} (h : Assembles o files a)
    (hrest : Does (do
      deliver o a
      if o.dump then put a.dump
      say "Success: No errors found") files r files₁) : Does (stages o) files r files₁ := by
  obtain ⟨t, text, hchosen, hread, hassemble⟩ := h
  exact (does_say _).bind ((does_loadTable hchosen).bind ((does_loadSource hread).bind
    ((does_check hassemble).bind hrest)))

/-! ### The command -/

theorem run_of_ok (h : Does (stages o) files (.ok ()) files₁) (printed : String) :
    ∃ printed', (run o : AtDesk F Exit).run ⟨files, printed⟩ = (.success, ⟨files₁, printed'⟩) := by
  obtain ⟨printed', h⟩ := h printed
  refine ⟨printed', ?_⟩
  rw [run, StateT.run_bind, h]
  rfl

theorem run_of_error {exit : Exit} (h : Does (stages o) files (.error exit) files₁)
    (printed : String) :
    ∃ printed', (run o : AtDesk F Exit).run ⟨files, printed⟩ = (exit, ⟨files₁, printed'⟩) := by
  obtain ⟨printed', h⟩ := h printed
  refine ⟨printed', ?_⟩
  rw [run, StateT.run_bind, h]
  rfl

/-- The command follows every course that the files and the options allow. -/
theorem Course.run_eq {exit : Exit} (h : Course o files exit files₁) (printed : String) :
    ∃ printed', (run o : AtDesk F Exit).run ⟨files, printed⟩ = (exit, ⟨files₁, printed'⟩) := by
  cases h with
  | tableUnread htable hread =>
    exact run_of_error ((does_say _).bind (does_loadTable_unread htable hread).bind_error) printed
  | tableRefused hrefused =>
    exact run_of_error ((does_say _).bind (does_loadTable_refused hrefused).bind_error) printed
  | sourceUnread hchosen hread =>
    exact run_of_error ((does_say _).bind ((does_loadTable hchosen).bind
      (does_loadSource_unread hread).bind_error)) printed
  | sourceRefused hchosen hread hassemble =>
    exact run_of_error ((does_say _).bind ((does_loadTable hchosen).bind
      ((does_loadSource hread).bind (does_check_refused hassemble).bind_error))) printed
  | imageUnwritten h hwrite =>
    exact run_of_error (h.does_stages (does_deliver_image_refused hwrite).bind_error) printed
  | jsonUnwritten h hwrite hjson hrefused =>
    exact run_of_error
      (h.does_stages (does_deliver_json_refused hwrite hjson hrefused).bind_error) printed
  | success h hdelivers =>
    refine run_of_ok (h.does_stages ((does_deliver hdelivers).bind ?_)) printed
    cases o.dump with
    | false => exact does_say _
    | true => exact (does_put _).bind (does_say _)

/-- Every run of the command takes a course. -/
theorem course_run (o : Options) (desk : Desk F) :
    Course o desk.files ((run o : AtDesk F Exit).run desk).1
      ((run o : AtDesk F Exit).run desk).2.files := by
  obtain ⟨exit, files', hcourse⟩ := exists_course o desk.files
  obtain ⟨printed', hrun⟩ := hcourse.run_eq desk.printed
  rw [hrun]
  exact hcourse

/-- The course of a run is the only one. -/
theorem Course.eq_run {exit : Exit} {desk : Desk F} (h : Course o desk.files exit files₁) :
    ((run o : AtDesk F Exit).run desk).1 = exit ∧
      ((run o : AtDesk F Exit).run desk).2.files = files₁ := by
  obtain ⟨printed', hrun⟩ := h.run_eq desk.printed
  rw [hrun]
  exact ⟨rfl, rfl⟩

theorem Course.delivered (h : Course o files .success files₁) :
    ∃ a, Assembles o files a ∧ Delivers o a files files₁ := by
  cases h with
  | success h hdelivers => exact ⟨_, h, hdelivers⟩

theorem Course.refused (h : Course o files .fatal files₁) : TableRefused o files := by
  cases h with
  | tableRefused h => exact h

theorem run_eq_success_iff (desk : Desk F) :
    ((run o : AtDesk F Exit).run desk).1 = .success ↔
      ∃ a files', Assembles o desk.files a ∧ Delivers o a desk.files files' := by
  constructor
  · intro hexit
    obtain ⟨a, h, hdelivers⟩ := (hexit ▸ course_run o desk).delivered
    exact ⟨a, _, h, hdelivers⟩
  · rintro ⟨a, files', h, hdelivers⟩
    exact (Course.success h hdelivers).eq_run.1

theorem run_eq_fatal_iff (desk : Desk F) :
    ((run o : AtDesk F Exit).run desk).1 = .fatal ↔ TableRefused o desk.files := by
  constructor
  · intro hexit
    exact (hexit ▸ course_run o desk).refused
  · intro h
    exact (Course.tableRefused h).eq_run.1

/-- Nothing is written before the source is assembled. -/
theorem Course.files_eq {exit : Exit} (hcourse : Course o files exit files₁)
    (hno : ∀ a, ¬Assembles o files a) : files₁ = files := by
  cases hcourse with
  | tableUnread | tableRefused | sourceUnread | sourceRefused => rfl
  | imageUnwritten h => exact absurd h (hno _)
  | jsonUnwritten h => exact absurd h (hno _)
  | success h => exact absurd h (hno _)

theorem size_imageBytes (a : Assembly) : (imageBytes a).size = 256 := by
  simp [imageBytes, ByteArray.size, Image.ram]

/-- The image is still there after the second write, if that goes elsewhere. -/
theorem Delivers.read_output [LawfulFiles F] {a : Assembly} (h : Delivers o a files files₁)
    (hholds : LawfulFiles.Holds files o.output)
    (hjson : ∀ path, o.json = some path → ¬LawfulFiles.SameFile files path o.output) :
    Files.read files₁ o.output = .ok (imageBytes a) := by
  obtain ⟨files₂, himage, hsecond⟩ := h
  have hread : Files.read files₂ o.output = .ok (imageBytes a) :=
    LawfulFiles.read_write hholds himage
  split at hsecond
  case h_1 => rwa [hsecond]
  case h_2 path hpath =>
    have hother : ¬LawfulFiles.SameFile files₂ path o.output :=
      fun hsame => hjson path hpath (LawfulFiles.sameFile_of_write himage hsame)
    exact LawfulFiles.read_write_other hother hsecond hread

theorem code_eq_zero_iff {exit : Exit} : exit.code = 0 ↔ exit = .success := by
  cases exit <;> simp [Exit.code]

theorem code_eq_two_iff {exit : Exit} : exit.code = 2 ↔ exit = .fatal := by
  cases exit <;> simp [Exit.code]

theorem code_eq_one_iff {exit : Exit} : exit.code = 1 ↔ exit ≠ .fatal ∧ exit ≠ .success := by
  cases exit <;> simp [Exit.code]

/-- The command ends with 0 if there are a table and a source, the source assembles and all writes
succeed; with 2 if the given table can be read but is none; and with 1 otherwise. Without an assembly
no file is touched. After a success an output path that holds what is written gives the 256 bytes of
the image, unless the JSON text was written over them. -/
theorem run_ends [LawfulFiles F] (o : Options) (desk : Desk F) :
    let exit := ((run o : AtDesk F Exit).run desk).1
    let files := ((run o : AtDesk F Exit).run desk).2.files
    (exit.code = 0 ↔ ∃ a files', Assembles o desk.files a ∧ Delivers o a desk.files files') ∧
    (exit.code = 2 ↔ TableRefused o desk.files) ∧
    (exit.code = 1 ↔ ¬TableRefused o desk.files ∧
      ¬∃ a files', Assembles o desk.files a ∧ Delivers o a desk.files files') ∧
    ((∀ a, ¬Assembles o desk.files a) → files = desk.files) ∧
    (exit.code = 0 → ∃ a, Assembles o desk.files a ∧ (imageBytes a).size = 256 ∧
      (LawfulFiles.Holds desk.files o.output →
        (∀ path, o.json = some path → ¬LawfulFiles.SameFile desk.files path o.output) →
        Files.read files o.output = .ok (imageBytes a))) := by
  intro exit files
  refine ⟨?_, ?_, ?_, (course_run o desk).files_eq, ?_⟩
  · rw [code_eq_zero_iff]
    exact run_eq_success_iff desk
  · rw [code_eq_two_iff]
    exact run_eq_fatal_iff desk
  · rw [code_eq_one_iff]
    exact and_congr (not_congr (run_eq_fatal_iff desk)) (not_congr (run_eq_success_iff desk))
  · intro hzero
    have hsuccess : exit = .success := code_eq_zero_iff.mp hzero
    have hcourse : Course o desk.files exit files := course_run o desk
    rw [hsuccess] at hcourse
    obtain ⟨a, h, hdelivers⟩ := hcourse.delivered
    exact ⟨a, h, size_imageBytes a, hdelivers.read_output⟩

/-- Options that ask for all there is. -/
def bothOutputs : Options where
  input := "main.asm"
  output := "./main.bin"
  table := none
  dump := true
  json := some "main.json"
  level := .info

/-- A working directory with a source whose line ends are mixed. -/
def sourceDesk : Desk FileTree :=
  ⟨.ofEntries [(["main.asm"], .file "MOV AL,5\nL: JMP L\r\nEND".toUTF8)], ""⟩

theorem run_ends_bothOutputs :
    ((run bothOutputs : AtDesk FileTree Exit).run sourceDesk).1.code = 0 ∧
      ∃ a, Assembles bothOutputs sourceDesk.files a ∧ (imageBytes a).size = 256 ∧
        Files.read ((run bothOutputs : AtDesk FileTree Exit).run sourceDesk).2.files "./main.bin" =
          .ok (imageBytes a) := by
  have hcode : ((run bothOutputs : AtDesk FileTree Exit).run sourceDesk).1.code = 0 := by
    decide +kernel
  have hleads : sourceDesk.files.Leads "./main.bin" ["tmp", "work", "main.bin"] :=
    ⟨by decide, by decide +kernel⟩
  have hother : sourceDesk.files.Leads "main.json" ["tmp", "work", "main.json"] :=
    ⟨by decide, by decide +kernel⟩
  obtain ⟨a, ha, hsize, hread⟩ := (run_ends bothOutputs sourceDesk).2.2.2.2 hcode
  refine ⟨hcode, a, ha, hsize, hread ?_ ?_⟩
  · intro hdiscards
    exact absurd (hleads.discards_iff.mp hdiscards) (by decide +kernel)
  · rintro path hpath hsame
    obtain rfl : "main.json" = path := Option.some.inj hpath
    have heq := (hleads.samePlace_iff.mp hsame).unique hother
    exact absurd heq (by decide)

/-- An output path that leads to the null device. -/
def discardedOutput : Options :=
  { bothOutputs with output := "/dev/null", json := none }

/-- The command cannot tell a path that keeps nothing: it ends with 0, and there is no image. -/
theorem run_discardedOutput :
    ((run discardedOutput : AtDesk FileTree Exit).run sourceDesk).1.code = 0 ∧
      discardedOutput.json = none ∧
      (∃ a, Assembles discardedOutput sourceDesk.files a) ∧
      ∀ a, Files.read ((run discardedOutput : AtDesk FileTree Exit).run sourceDesk).2.files
        discardedOutput.output ≠ .ok (imageBytes a) := by
  have hcode : ((run discardedOutput : AtDesk FileTree Exit).run sourceDesk).1.code = 0 := by
    decide +kernel
  have hcourse := course_run discardedOutput sourceDesk
  rw [code_eq_zero_iff.mp hcode] at hcourse
  obtain ⟨a, ha, hdelivers⟩ := hcourse.delivered
  refine ⟨hcode, rfl, ⟨a, ha⟩, fun b hread => ?_⟩
  have hempty : Files.read ((run discardedOutput : AtDesk FileTree Exit).run sourceDesk).2.files
      discardedOutput.output = .ok .empty := by decide +kernel
  have hsize := congrArg ByteArray.size (Except.ok.inj (hempty.symm.trans hread))
  rw [size_imageBytes] at hsize
  exact absurd hsize (by decide)

end Command

end Asm8
