import InsteonRf.Lib.Generations

/-!
# The rotating log

Records are appended to a file as lines. Once the file has grown to its limit it is renamed, and
the files renamed before it move one number up; the oldest is overwritten.
-/
namespace InsteonRf

/-- The writer, and what is on disk under its path: the file itself is number 0, and the file with
the suffix `.n` is number `n`. -/
structure JsonlWriter where
  max_bytes : ℕ := 32 <<< 20
  backups : ℕ := 5
  files : ℕ → Option String

namespace JsonlWriter
open Generations

/-- The constructor: the file is opened for appending. -/
def create (max_bytes backups : ℕ) (files : ℕ → Option String) : JsonlWriter :=
  { max_bytes, backups, files := touch "" files }

/-- `_fh.tell()`, which after an append is the size of the file. -/
def tell (w : JsonlWriter) : ℕ := ((w.files 0).getD "").utf8ByteSize

def rotate (w : JsonlWriter) : JsonlWriter :=
  let files := shift w.files (w.backups - 1)
  -- the file is open, so it is there to be renamed
  let files := if w.backups ≠ 0 then replace files 0 1 else files
  { w with files := touch "" files }

def append (w : JsonlWriter) (text : String) : JsonlWriter :=
  { w with files := fun n => if n = 0 then some ((w.files 0).getD "" ++ text) else w.files n }

section Records
variable {ρ : Type*} (dumps : ρ → String)

def line (record : ρ) : String := dumps record ++ "\n"

def write (w : JsonlWriter) (record : ρ) : JsonlWriter :=
  let w := w.append (line dumps record)
  if w.max_bytes ≠ 0 ∧ w.max_bytes ≤ w.tell then w.rotate else w

inductive Op (ρ : Type*) where
  | write (record : ρ)
  | rotate

def step (w : JsonlWriter) : Op ρ → JsonlWriter
  | .write record => w.write dumps record
  | .rotate => w.rotate

def run (w : JsonlWriter) (ops : List (Op ρ)) : JsonlWriter := ops.foldl (step dumps) w

def written (ops : List (Op ρ)) : List ρ :=
  ops.filterMap fun
    | .write record => some record
    | .rotate => none

def text (records : List ρ) : String := String.join (records.map (line dumps))

/-- The files from the highest number down to `.1`, and the current one last. -/
def readBack (w : JsonlWriter) (rotated : ℕ) : List (Option String) :=
  (List.range (rotated + 1)).reverse.map w.files

/-- The files hold these generations of records, the newest first. -/
structure Holds (w : JsonlWriter) (gens : List (List ρ)) : Prop where
  nonempty : gens ≠ []
  bounded : gens.length ≤ w.backups + 1
  files : w.files = ofList (gens.map (text dumps))

variable {dumps} {w : JsonlWriter} {gens : List (List ρ)}

theorem text_concat (records : List ρ) (record : ρ) :
    text dumps (records ++ [record]) = text dumps records ++ line dumps record := by
  simp [text, String.join_append]

theorem Holds.append {g : List ρ} (h : Holds dumps w (g :: gens)) (record : ρ) :
    Holds dumps (w.append (line dumps record)) ((g ++ [record]) :: gens) := by
  refine ⟨by simp, h.bounded, ?_⟩
  funext n
  rcases n with _ | n
  · simp [JsonlWriter.append, h.files, ofList, text_concat]
  · simp [JsonlWriter.append, h.files, ofList]

theorem Holds.rotate (h : Holds dumps w gens) (hb : 0 < w.backups) :
    Holds dumps w.rotate (([] :: gens).take (w.backups + 1)) := by
  refine ⟨by simp, by simp [JsonlWriter.rotate], ?_⟩
  rw [List.map_take, List.map_cons, show text dumps [] = "" from rfl]
  rw [← rotate_ofList "" hb (by simpa using h.bounded)]
  simp only [JsonlWriter.rotate, ← h.files, Nat.ne_of_gt hb, ne_eq, not_false_eq_true, if_true]

theorem step_settings (w : JsonlWriter) (op : Op ρ) :
    (w.step dumps op).backups = w.backups ∧ (w.step dumps op).max_bytes = w.max_bytes := by
  cases op with
  | rotate => exact ⟨rfl, rfl⟩
  | write record =>
      show (w.write dumps record).backups = w.backups ∧ (w.write dumps record).max_bytes = w.max_bytes
      unfold write
      dsimp only
      split_ifs <;> exact ⟨rfl, rfl⟩

/-- What generations are left, read from the oldest on, ends as the whole of them did. -/
theorem flatten_take_suffix (gens : List (List ρ)) (n : ℕ) :
    (gens.take n).reverse.flatten <:+ gens.reverse.flatten := by
  conv_rhs => rw [← List.take_append_drop n gens, List.reverse_append, List.flatten_append]
  exact List.suffix_append _ _

/-- One step keeps an end of what the files held and of what it writes. -/
theorem Holds.step (h : Holds dumps w gens) (hb : 0 < w.backups) (op : Op ρ) :
    ∃ next, Holds dumps (w.step dumps op) next ∧
      next.reverse.flatten <:+ gens.reverse.flatten ++ written [op] := by
  cases op with
  | rotate =>
      refine ⟨_, h.rotate hb, ?_⟩
      have hend := flatten_take_suffix ([] :: gens) (w.backups + 1)
      simpa [written] using hend
  | write record =>
      obtain ⟨g, gens, rfl⟩ := List.exists_cons_of_ne_nil h.nonempty
      have happend := h.append record
      have hflat : ((g ++ [record]) :: gens).reverse.flatten =
          (g :: gens).reverse.flatten ++ written [Op.write record] := by
        simp [written]
      show ∃ next, Holds dumps (w.write dumps record) next ∧ _
      unfold write
      dsimp only
      split_ifs
      · refine ⟨_, happend.rotate hb, ?_⟩
        have hend := flatten_take_suffix ([] :: (g ++ [record]) :: gens) (w.backups + 1)
        rw [← hflat]
        simpa [JsonlWriter.append] using hend
      · exact ⟨_, happend, by rw [hflat]⟩

theorem run_concat (w : JsonlWriter) (ops : List (Op ρ)) (op : Op ρ) :
    run dumps w (ops ++ [op]) = (run dumps w ops).step dumps op := by
  simp [run]

theorem written_append (ops more : List (Op ρ)) :
    written (ops ++ more) = written ops ++ written more := List.filterMap_append

theorem run_settings (w : JsonlWriter) (ops : List (Op ρ)) :
    (run dumps w ops).backups = w.backups ∧ (run dumps w ops).max_bytes = w.max_bytes := by
  induction ops using List.reverseRecOn with
  | nil => exact ⟨rfl, rfl⟩
  | append_singleton ops op ih =>
      rw [run_concat, (step_settings _ op).1, (step_settings _ op).2]
      exact ih

theorem holds_create (dumps : ρ → String) (max_bytes backups : ℕ) :
    Holds dumps (create max_bytes backups (fun _ => none)) [[]] := by
  refine ⟨by simp, by simp, ?_⟩
  funext n
  rcases n with _ | n <;> rfl

theorem holds_run (dumps : ρ → String) (max_bytes : ℕ) {backups : ℕ} (hb : 0 < backups)
    (ops : List (Op ρ)) :
    ∃ gens, Holds dumps (run dumps (create max_bytes backups (fun _ => none)) ops) gens ∧
      gens.reverse.flatten <:+ written ops := by
  induction ops using List.reverseRecOn with
  | nil => exact ⟨[[]], holds_create dumps max_bytes backups, List.suffix_rfl⟩
  | append_singleton ops op ih =>
      obtain ⟨gens, hgens, hend⟩ := ih
      have hkept : 0 < (run dumps (create max_bytes backups (fun _ => none)) ops).backups := by
        rw [(run_settings _ ops).1]
        exact hb
      obtain ⟨next, hnext, hsuffix⟩ := hgens.step hkept op
      refine ⟨next, by rw [run_concat]; exact hnext, hsuffix.trans ?_⟩
      rw [written_append]
      obtain ⟨lost, hlost⟩ := hend
      exact ⟨lost, by rw [← hlost, List.append_assoc]⟩

theorem tell_rotate (h : w.backups ≠ 0) : w.rotate.tell = 0 := by
  simp only [tell, JsonlWriter.rotate, h, ne_eq, not_false_eq_true, if_true]
  rfl

theorem tell_write (w : JsonlWriter) (hm : 0 < w.max_bytes) (hb : 0 < w.backups) (record : ρ) :
    (w.write dumps record).tell < w.max_bytes := by
  unfold write
  dsimp only
  split_ifs with hfull
  · have hrotated : (w.append (line dumps record)).backups ≠ 0 := Nat.ne_of_gt hb
    rw [tell_rotate hrotated]
    exact hm
  · have hsize : (w.append (line dumps record)).max_bytes = w.max_bytes := rfl
    rw [hsize] at hfull
    omega

/-- Read from the highest number down, the files are the generations, the oldest first. -/
theorem Holds.readBack {gens : List (List ρ)} (h : Holds dumps w gens) {rotated : ℕ}
    (hlen : gens.length = rotated + 1) :
    w.readBack rotated = gens.reverse.map (fun g => some (text dumps g)) := by
  rw [JsonlWriter.readBack, List.map_reverse, List.map_reverse, ← hlen, h.files]
  congr 1
  refine List.ext_getElem (by simp) ?_
  intro n _ hn
  have hin : n < gens.length := by simpa using hn
  simp [ofList, hin]

/-- The files read back are an end of what has been written, in order and in whole lines, however
often the log has been rotated; and a write leaves the current file below its limit. -/
theorem rotated_log (dumps : ρ → String) {max_bytes backups : ℕ} (hm : 0 < max_bytes)
    (hb : 1 ≤ backups) (ops : List (Op ρ)) :
    let w := run dumps (create max_bytes backups (fun _ => none)) ops
    (∃ rotated ≤ backups, (∀ n, (w.files n).isSome ↔ n ≤ rotated) ∧
      ∃ groups : List (List ρ), groups.flatten <:+ written ops ∧
        w.readBack rotated = groups.map (fun g => some (text dumps g))) ∧
    ∀ record, (w.write dumps record).tell < max_bytes := by
  intro w
  have hbackups : w.backups = backups := (run_settings _ ops).1
  have hmax : w.max_bytes = max_bytes := (run_settings _ ops).2
  obtain ⟨gens, hgens, hend⟩ := holds_run dumps max_bytes hb ops
  obtain ⟨rotated, hlen⟩ : ∃ rotated, gens.length = rotated + 1 :=
    Nat.exists_eq_succ_of_ne_zero (by simpa using hgens.nonempty)
  constructor
  · refine ⟨rotated, ?_, ?_, gens.reverse, hend, hgens.readBack hlen⟩
    · have hbound := hgens.bounded
      rw [hbackups] at hbound
      omega
    · intro n
      rw [show w.files = ofList (gens.map (text dumps)) from hgens.files, ofList]
      simp [hlen]
  · intro record
    rw [← hmax]
    exact tell_write w (by omega) (by omega) record

end Records

/-- Six records, a limit of four bytes and two backups: the first two records are gone. -/
def sixRecords : List (Op String) := ["a", "b", "ccc", "d", "e", "f"].map Op.write

theorem rotated_log_six :
    let w := run id (create 4 2 (fun _ => none)) sixRecords
    w.readBack 2 = [some "ccc\n", some "d\ne\n", some "f\n"] ∧
    (∃ rotated ≤ 2, (∀ n, (w.files n).isSome ↔ n ≤ rotated) ∧
      ∃ groups : List (List String), groups.flatten <:+ written sixRecords ∧
        w.readBack rotated = groups.map (fun g => some (text id g))) ∧
    ∀ record, (w.write id record).tell < 4 :=
  ⟨by decide, rotated_log id (by decide) (by decide) sixRecords⟩

end JsonlWriter

end InsteonRf
