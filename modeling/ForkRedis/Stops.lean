import ForkRedis.Dump

set_option autoImplicit false

/- The dump file wherever the process stops. Start-up reads the file and truncates it, and
`RDBSave` truncates it and writes it anew, piece by piece. -/
namespace ForkRedis

open Wire Decimal Lists Fallible

/-- The calls of `FileManager` that change the file. -/
inductive FileCall where
  | truncate
  | write (text : Bytes)

def FileCall.apply (file : Bytes) : FileCall → Bytes
  | .truncate => []
  | .write text => file ++ text

/-- What is done to the dump file: `MainLoop::MainLoop`, or `RDBSave` of the images of the
databases. -/
inductive Handling where
  | startup
  | save

/-- `LoadAndExport` leaves the file as it is. -/
def Handling.calls (images : List Bytes) : Handling → List FileCall
  | .startup => [.truncate]
  | .save => .truncate :: .write (bytes "RDB") :: images.map .write

/-- The file after so many of the calls. -/
def Handling.fileAt (handling : Handling) (images : List Bytes) (file : Bytes) (done : Nat) : Bytes :=
  ((handling.calls images).take done).foldl FileCall.apply file

theorem foldl_write (file : Bytes) (texts : List Bytes) :
    (texts.map FileCall.write).foldl FileCall.apply file = file ++ texts.flatten := by
  induction texts generalizing file with
  | nil => rw [List.map_nil, List.foldl_nil, List.flatten_nil, List.append_nil]
  | cons text texts ih =>
      rw [List.map_cons, List.foldl_cons, ih, FileCall.apply, List.flatten_cons, List.append_assoc]

/-- Behind the magic number, the file is a dump of the images that are written. -/
theorem fileAt_save (images : List Bytes) (file : Bytes) (written : Nat) :
    Handling.save.fileAt images file (written + 2) = rdbSave (images.take written) := by
  rw [Handling.fileAt, Handling.calls, List.take_succ_cons, List.take_succ_cons, List.foldl_cons,
    List.foldl_cons, ← List.map_take, foldl_write]
  rfl

/-- `RDBSave`, when it comes to its end. -/
theorem fileAt_save_all (images : List Bytes) (file : Bytes) :
    Handling.save.fileAt images file (Handling.save.calls images).length = rdbSave images := by
  have count : (Handling.save.calls images).length = images.length + 2 := by
    simp only [Handling.calls, List.length_cons, List.length_map]
  rw [count, fileAt_save, List.take_length]

/-- The databases of which a prefix of the images was written. -/
theorem databaseSave_take {conf : DumpConf} {databases : List Db} {images : List Bytes}
    (saved : databaseSave conf databases = .ok images) (written : Nat) :
    databaseSave conf (databases.take written) = .ok (images.take written) :=
  mapM_eq_ok.mpr (List.forall₂_take written (mapM_eq_ok.mp saved))

/-- All databases with a key are among the first ones. -/
theorem keyed_take_iff (databases : List Db) (count : Nat) :
    (keyed (databases.take count)).map Db.norm = (keyed databases).map Db.norm ↔
      keyed (databases.drop count) = [] := by
  have parts : keyed databases = keyed (databases.take count) ++ keyed (databases.drop count) := by
    rw [keyed, keyed, keyed, ← List.filter_append, List.take_append_drop]
  rw [parts, List.map_append, List.self_eq_append_right, List.map_eq_nil_iff]

/-- The file is read as one of two dumps. -/
def ReadsAs (lz : Lzfse) (old new file : Bytes) : Prop :=
  rdbLoad lz file = rdbLoad lz old ∨ rdbLoad lz file = rdbLoad lz new

instance (lz : Lzfse) (old new file : Bytes) : Decidable (ReadsAs lz old new file) :=
  inferInstanceAs (Decidable (_ ∨ _))

/-- Where a stop does no harm: before the first call, and, in `RDBSave`, when the databases
whose images are written are all that have a key, or are again those of the old file. -/
def HarmlessStop (old new : List Db) : Handling → Nat → Prop
  | _, 0 => True
  | .startup, _ + 1 => False
  | .save, 1 => False
  | .save, written + 2 =>
      keyed (new.drop written) = [] ∨
        (keyed (new.take written)).map Db.norm = (keyed old).map Db.norm

/-- A dump that is complete, and one that is about to take its place. Wherever the process
stops, `RDBLoad` of the file yields the databases of the one or of the other exactly if the
stop is harmless. -/
theorem stop_keeps_dump_iff {conf : DumpConf} (lawful : conf.lz.Lawful) {old new : List Db}
    (oldStorable : ∀ db ∈ old, db.Storable) (newStorable : ∀ db ∈ new, db.Storable)
    {oldImages newImages : List Bytes} (oldSaved : databaseSave conf old = .ok oldImages)
    (newSaved : databaseSave conf new = .ok newImages) (handling : Handling) (done : Nat)
    (inside : done ≤ (handling.calls newImages).length) :
    ReadsAs conf.lz (rdbSave oldImages) (rdbSave newImages)
        (handling.fileAt newImages (rdbSave oldImages) done) ↔
      HarmlessStop old new handling done := by
  have oldLoads := rdbLoad_save lawful oldStorable oldSaved
  have newLoads := rdbLoad_save lawful newStorable newSaved
  -- an empty file is not read as anything
  have empty : ¬ ReadsAs conf.lz (rdbSave oldImages) (rdbSave newImages) [] := by
    rintro (same | same)
    · cases same.trans oldLoads
    · cases same.trans newLoads
  cases done with
  | zero => exact iff_of_true (Or.inl rfl) (by cases handling <;> trivial)
  | succ done =>
      cases handling with
      | startup =>
          have only : done = 0 := by
            rw [Handling.calls, List.length_singleton] at inside
            omega
          subst only
          exact iff_of_false empty not_false
      | save =>
          cases done with
          | zero => exact iff_of_false empty not_false
          | succ written =>
              have storable : ∀ db ∈ new.take written, db.Storable :=
                fun db member => newStorable db (List.mem_of_mem_take member)
              have loads := rdbLoad_save lawful storable (databaseSave_take newSaved written)
              rw [ReadsAs, fileAt_save, loads, oldLoads, newLoads, Except.ok.injEq,
                Except.ok.injEq, keyed_take_iff, HarmlessStop]
              exact Or.comm

/-- The second of the new databases has no key, and the process stops before its image is
written. -/
theorem stop_keeps_dump_before_keyless :
    ∃ oldImages newImages,
      databaseSave ⟨Lzfse.storedBlocks, false⟩ [Db.single 0] = .ok oldImages ∧
      databaseSave ⟨Lzfse.storedBlocks, false⟩ [Db.single 3, ⟨4, Keyed.empty⟩] = .ok newImages ∧
      Handling.save.fileAt newImages (rdbSave oldImages) 3 ≠ rdbSave oldImages ∧
      ReadsAs Lzfse.storedBlocks (rdbSave oldImages) (rdbSave newImages)
        (Handling.save.fileAt newImages (rdbSave oldImages) 3) := by
  obtain ⟨oldImages, oldSaved, checked⟩ : ∃ oldImages,
      databaseSave ⟨Lzfse.storedBlocks, false⟩ [Db.single 0] = .ok oldImages ∧
      ((databaseSave ⟨Lzfse.storedBlocks, false⟩ [Db.single 3, ⟨4, Keyed.empty⟩]).toOption.any
        fun newImages => decide (newImages.length = 2 ∧
          Handling.save.fileAt newImages (rdbSave oldImages) 3 ≠ rdbSave oldImages)) = true :=
    ok_checked (by decide +kernel)
  obtain ⟨newImages, newSaved, count, differs⟩ := ok_checked checked
  refine ⟨oldImages, newImages, oldSaved, newSaved, differs, ?_⟩
  refine (stop_keeps_dump_iff Lzfse.storedBlocks_lawful ?_ ?_ oldSaved newSaved .save 3 ?_).mpr
    (Or.inl rfl)
  · intro db member
    rw [List.mem_singleton.mp member]
    exact Db.single_storable 0
  · intro db member
    rcases List.mem_cons.mp member with rfl | rest
    · exact Db.single_storable 3
    · rw [List.mem_singleton.mp rest]
      exact ⟨by decide, by decide⟩
  · rw [Handling.calls, List.length_cons, List.length_cons, List.length_map, count]
    decide

/-- A process that stops in its start-up leaves an empty file, which `RDBLoad` reads beyond
its end. One that stops in `RDBSave` between two images leaves a dump that is neither. -/
theorem stop_loses_dump :
    ∃ oldImages newImages,
      databaseSave ⟨Lzfse.storedBlocks, false⟩ [Db.single 0] = .ok oldImages ∧
      databaseSave ⟨Lzfse.storedBlocks, false⟩ [Db.single 1, Db.single 2] = .ok newImages ∧
      rdbLoad Lzfse.storedBlocks (Handling.startup.fileAt newImages (rdbSave oldImages) 1) =
        .error .undefined ∧
      ¬ ReadsAs Lzfse.storedBlocks (rdbSave oldImages) (rdbSave newImages)
        (Handling.startup.fileAt newImages (rdbSave oldImages) 1) ∧
      ¬ ReadsAs Lzfse.storedBlocks (rdbSave oldImages) (rdbSave newImages)
        (Handling.save.fileAt newImages (rdbSave oldImages) 3) := by
  obtain ⟨oldImages, oldSaved, checked⟩ : ∃ oldImages,
      databaseSave ⟨Lzfse.storedBlocks, false⟩ [Db.single 0] = .ok oldImages ∧
      ((databaseSave ⟨Lzfse.storedBlocks, false⟩ [Db.single 1, Db.single 2]).toOption.any
        fun newImages => decide (
          rdbLoad Lzfse.storedBlocks (Handling.startup.fileAt newImages (rdbSave oldImages) 1) =
            .error .undefined ∧
          ¬ ReadsAs Lzfse.storedBlocks (rdbSave oldImages) (rdbSave newImages)
            (Handling.startup.fileAt newImages (rdbSave oldImages) 1) ∧
          ¬ ReadsAs Lzfse.storedBlocks (rdbSave oldImages) (rdbSave newImages)
            (Handling.save.fileAt newImages (rdbSave oldImages) 3))) = true :=
    ok_checked (by decide +kernel)
  obtain ⟨newImages, newSaved, lost⟩ := ok_checked checked
  exact ⟨oldImages, newImages, oldSaved, newSaved, lost⟩

end ForkRedis
