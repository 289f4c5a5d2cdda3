import ProtoSchema.Proofs.Pool.Drafting
import ProtoSchema.Proofs.Renaming.Outline
import ProtoSchema.Proofs.Session.Imports

/-! # Declarations as they are read

The events in front of the cursor of a file declare what is there of it (`Traced.drafts`), whatever was
read of other files meanwhile.  So a complete file holds what the statements of its text declare, and
nothing else (`Completed.declare`). -/

namespace ProtoSchema.Session

variable {r : Resolver} {x s : Session} {rd : Reading} {name : String} {f : FileId}

/-- A file that is as it was when it was a draft is a draft. -/
theorem Later.drafts {s₀ : Session} {c : Cursor} {es : List Event} (h : Later c.file s₀ s)
    (hw₀ : s₀.pool.WellFormed) (hd : c.Drafts es s₀.pool) (hw : s.pool.WellFormed)
    (hf : s.pool.HasFile c.file) : c.Drafts es s.pool :=
  hd.kept hw₀ hw h.kept hf

/-- After the last event in front of its cursor, a file was a draft of those events, and it is still as it
was then. -/
theorem Traced.drafts (h : Traced r s rd) : ∃ s₀ : Session, s₀.pool.WellFormed ∧
    Later rd.cursor.file s₀ s ∧ rd.cursor.Drafts rd.done s₀.pool := by
  induction h with
  | @start s name file regular free opened =>
    have hadded := Pool.fileAdded s.pool name file.path
    have hw : (s.begin name file).pool.WellFormed := regular.sound.tree.of_fileAdded hadded
    exact ⟨_, hw, .refl _ _, .start hadded.file_new⟩
  | @event s rd e rest c pool notice traced regular next noImport applied ih =>
    obtain ⟨s₀, hw₀, hlater, hd⟩ := ih
    have hw := regular.sound.tree
    obtain ⟨ks, ks', hn, hf, heff, -⟩ :=
      reading_event (regular.sound.reading _ (List.mem_cons_self ..)) next applied
    have hd := hlater.drafts hw₀ hd hw hf.hasFile
    exact ⟨s.declare rd.name pool notice, heff.wellFormed hn hf hw, .refl _ _, hd.event hn hf hw heff⟩
  | @importFile s rd kind target rest id traced regular next found ih =>
    obtain ⟨s₀, hw₀, hlater, hd⟩ := ih
    have hw := regular.sound.tree
    have hd := hlater.drafts hw₀ hd hw traced.hasFile.1
    obtain ⟨ks, ks', hf, hn⟩ := (regular.sound.reading _ (List.mem_cons_self ..)).fits
    rw [next] at hn
    cases hn with
    | cons head tail =>
      cases head
      have hk : ∀ F : File, F.members = F.members ∧ F.options = F.options := fun _ => ⟨rfl, rfl⟩
      have hw' : (s.recordImport rd.cursor.file target.value ⟨id, kind⟩).pool.WellFormed :=
        Pool.SameTree.wellFormed (.modifyFile _ _ fun _ => ⟨rfl, rfl⟩) hw
      exact ⟨_, hw', .refl _ _, hd.record (hf.noEnum (by simp)) hw hw' hk rfl⟩
  | later traced later ih =>
    obtain ⟨s₀, hw₀, hlater, hd⟩ := ih
    exact ⟨s₀, hw₀, hlater.trans later, hd⟩

/-- In a complete file stands what the statements of its text declare. -/
theorem Completed.declare (h : Completed r x name f) (hw : x.pool.WellFormed) {file : SourceFile}
    (opened : r.openFile name = .ok file) :
    (Event.ofText file.text).2 = none ∧
      Event.Declare (Event.ofText file.text).1 (x.pool.declared .asWritten (.file f)) := by
  cases h with
  | @intro s rd pool traced regular finished noFault checked later =>
    obtain ⟨file', opened', htext, -⟩ := traced.opened
    obtain rfl : file' = file := Except.ok.inj (opened'.symm.trans opened)
    rw [← htext]
    refine ⟨noFault, ?_⟩
    have hw₁ := regular.sound.tree
    have hfile := traced.hasFile.1
    obtain ⟨s₀, hw₀, hlater, hd⟩ := traced.drafts
    have hd := hlater.drafts hw₀ hd hw₁ hfile
    -- at the end of the text all blocks are closed
    have hdone : (Event.ofText rd.text).1 = rd.done := by rw [traced.text, finished, List.append_nil]
    have hclosed : Event.depth (Event.ofText rd.text).1 = 0 := by
      obtain ⟨ks, hnested, hks⟩ := Event.nested_ofText rd.text
      rw [hnested.depth_eq, hks noFault]
      rfl
    have hdeclare := hd.drafted.declare (hdone ▸ hclosed)
    -- the checks leave what is written, and nothing is declared later
    obtain ⟨hrecorded, -, -⟩ := recordTypes_sound hw₁ regular.sound.types rd.cursor.file
    obtain ⟨hchecked, htouches⟩ := regular.sound.checked checked
    have hlast := (later.kept.outline (hchecked.sameTree.wellFormed hrecorded) hw
      (htouches.file _ hfile).1).trans (hchecked.outline hw₁ hfile)
    rw [show x.pool.declared .asWritten (.file rd.cursor.file) = _ from
      congrArg FileOutline.declared hlast, hdone]
    exact hdeclare

end ProtoSchema.Session
