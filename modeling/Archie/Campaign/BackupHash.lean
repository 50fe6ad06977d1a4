import Archie.Lib.Keyed
import Archie.Lib.Python

/-! The hashes of the backup: `create_backup` takes the digests of the campaign's files, `process_config`
    writes them to a row of string columns, `read_backup` and `check_backup` compare them with the files.

    A string column pads with zero bytes, and reading removes zero bytes from the end:

        digest  b6 ff … f5 00  ──write──▶  b6 ff … f5 00  ──read──▶  b6 ff … f5       one byte short

    The hash function is a parameter with digests of 32 bytes. -/

namespace Archie.Campaign
open Python

/-! ### String columns -/

/-- A cell of `tables.StringCol(itemsize)`. -/
def stringCol (itemsize : ℕ) (value : List UInt8) : List UInt8 :=
  value.take itemsize ++ List.replicate (itemsize - value.length) 0

def readString (cell : List UInt8) : List UInt8 := cell.rdropWhile (· = 0)

/-- A value that fits comes back without the zero bytes at its end. -/
theorem readString_stringCol {itemsize : ℕ} {value : List UInt8} (h : value.length ≤ itemsize) :
    readString (stringCol itemsize value) = value.rdropWhile (· = 0) := by
  rw [readString, stringCol, List.take_of_length_le h]
  generalize itemsize - value.length = n
  induction n with
  | zero => rw [List.replicate_zero, List.append_nil]
  | succ n ih =>
    rw [List.replicate_succ', ← List.append_assoc, List.rdropWhile_concat_pos _ _ _ (by simp), ih]

/-! ### The backup -/

/-- What `hashlib.sha256(…).digest()` returns. -/
structure Digest where
  bytes : List UInt8
  length_eq : bytes.length = 32

inductive HashName where
  | qemuHash | faultHash | kernelHash | biosHash
  deriving DecidableEq

/-- The file names in the arguments and in the configuration. -/
structure BackupFiles where
  qemu : Text
  faults : Text
  kernel : Text
  bios : Text

def BackupFiles.filenames (f : BackupFiles) : List (HashName × Text) :=
  [(.qemuHash, f.qemu), (.faultHash, f.faults), (.kernelHash, f.kernel), (.biosHash, f.bios)]

/-- The keys `hash` and `hash_function` of the configuration. -/
structure BackupHash where
  hash : List (HashName × Digest)
  hashFunction : List UInt8

/-- A row of `hash_table`. -/
structure HashRow where
  hashes : HashName → List UInt8
  hashFunction : List UInt8

section

variable (sha256 : List UInt8 → Digest) (readFile : Text → Option (List UInt8))

/-- Only what is a file gets a hash. -/
def createBackup (f : BackupFiles) : BackupHash where
  hash := f.filenames.filterMap fun e => (readFile e.2).map fun bytes => (e.1, sha256 bytes)
  hashFunction := "sha256".toUTF8.toList

/-- Columns that are not set stay empty. -/
def processConfigHash (exp : BackupHash) : HashRow where
  hashes := exp.hash.foldl (fun row e => Function.update row e.1 (stringCol 32 e.2.bytes))
    fun _ => stringCol 32 []
  hashFunction := stringCol 16 exp.hashFunction

def readBackupHash (row : HashRow) (name : HashName) : List UInt8 := readString (row.hashes name)

/-- A hash without a file must be empty. -/
def checkBackup (f : BackupFiles) (backupHash : HashName → List UInt8) : Bool :=
  f.filenames.all fun e =>
    ((readFile e.2).map fun bytes => decide (backupHash e.1 = (sha256 bytes).bytes)).getD
      (backupHash e.1).isEmpty

end

variable {sha256 : List UInt8 → Digest} {readFile : Text → Option (List UInt8)} {f : BackupFiles}

theorem nodup_filenames (f : BackupFiles) : (f.filenames.map Prod.fst).Nodup := by
  have hnames : f.filenames.map Prod.fst = [.qemuHash, .faultHash, .kernelHash, .biosHash] := rfl
  rw [hnames]
  decide

theorem mem_hash {name : HashName} {digest : Digest} :
    (name, digest) ∈ (createBackup sha256 readFile f).hash ↔
      ∃ location bytes, (name, location) ∈ f.filenames ∧ readFile location = some bytes ∧
        sha256 bytes = digest := by
  simp only [createBackup, List.mem_filterMap, Option.map_eq_some_iff, Prod.mk.injEq, Prod.exists]
  constructor
  · rintro ⟨_, location, hname, bytes, hfile, rfl, hdigest⟩
    exact ⟨location, bytes, hname, hfile, hdigest⟩
  · rintro ⟨location, bytes, hname, hfile, hdigest⟩
    exact ⟨name, location, hname, bytes, hfile, rfl, hdigest⟩

/-- No column is written twice. -/
theorem nodup_hash (sha256 : List UInt8 → Digest) (readFile : Text → Option (List UInt8))
    (f : BackupFiles) : ((createBackup sha256 readFile f).hash.map Prod.fst).Nodup := by
  rw [List.Nodup, List.pairwise_map]
  refine List.pairwise_filterMap.mpr ((List.pairwise_map.mp (nodup_filenames f)).imp ?_)
  intro a b hne x hx y hy
  obtain ⟨_, _, rfl⟩ := Option.map_eq_some_iff.mp hx
  obtain ⟨_, _, rfl⟩ := Option.map_eq_some_iff.mp hy
  exact hne

/-- The hash of a file comes back without the zero bytes at its end. -/
theorem readBackupHash_of_file {name : HashName} {location : Text} {bytes : List UInt8}
    (hname : (name, location) ∈ f.filenames) (hfile : readFile location = some bytes) :
    readBackupHash (processConfigHash (createBackup sha256 readFile f)) name
      = (sha256 bytes).bytes.rdropWhile (· = 0) := by
  have hmem : (name, sha256 bytes) ∈ (createBackup sha256 readFile f).hash :=
    mem_hash.mpr ⟨location, bytes, hname, hfile, rfl⟩
  have hcell := Keyed.foldl_update_of_mem (g := fun e => stringCol 32 e.2.bytes)
    (nodup_hash sha256 readFile f) hmem fun _ => stringCol 32 []
  rw [readBackupHash, processConfigHash]
  exact (congrArg readString hcell).trans (readString_stringCol (sha256 bytes).length_eq.le)

theorem readBackupHash_of_noFile {name : HashName} {location : Text}
    (hname : (name, location) ∈ f.filenames) (hfile : readFile location = none) :
    readBackupHash (processConfigHash (createBackup sha256 readFile f)) name = [] := by
  have hnotMem : name ∉ (createBackup sha256 readFile f).hash.map Prod.fst := by
    intro hmem
    obtain ⟨⟨_, digest⟩, hentry, rfl⟩ := List.mem_map.mp hmem
    obtain ⟨location', bytes, hname', hfile', _⟩ := mem_hash.mp hentry
    have hloc := Keyed.eq_of_key (nodup_filenames f) hname hname' rfl
    rw [(Prod.mk.inj hloc).2, hfile'] at hfile
    cases hfile
  have hcell := Keyed.foldl_update_of_notMem (g := fun e => stringCol 32 e.2.bytes) hnotMem
    fun _ => stringCol 32 []
  rw [readBackupHash, processConfigHash]
  exact (congrArg readString hcell).trans (readString_stringCol (Nat.zero_le _))

theorem rdropWhile_digest (d : Digest) :
    d.bytes.rdropWhile (· = 0) = d.bytes ↔ d.bytes.getLast? ≠ some 0 := by
  have hne : d.bytes ≠ [] := List.ne_nil_of_length_pos (by rw [d.length_eq]; decide)
  rw [List.rdropWhile_eq_self_iff, List.getLast?_eq_some_getLast hne]
  simp [hne]

/-- A backup is accepted for its own files iff no digest ends in a zero byte. -/
theorem checkBackup_accepts_iff (sha256 : List UInt8 → Digest) (readFile : Text → Option (List UInt8))
    (f : BackupFiles) :
    checkBackup sha256 readFile f (readBackupHash (processConfigHash (createBackup sha256 readFile f)))
      = true ↔
      ∀ e ∈ f.filenames, ∀ bytes, readFile e.2 = some bytes →
        (sha256 bytes).bytes.getLast? ≠ some 0 := by
  rw [checkBackup, List.all_eq_true]
  refine forall₂_congr fun e he => ?_
  rcases hfile : readFile e.2 with _ | bytes
  · rw [Option.map_none, Option.getD_none, readBackupHash_of_noFile he hfile]
    simp
  · rw [Option.map_some, Option.getD_some, readBackupHash_of_file he hfile, decide_eq_true_iff,
      rdropWhile_digest]
    simp

/-- The digest of `{}`. -/
def bracesDigest : Digest :=
  ⟨[0x44, 0x13, 0x6f, 0xa3, 0x55, 0xb3, 0x67, 0x8a, 0x11, 0x46, 0xad, 0x16, 0xf7, 0xe8, 0x64, 0x9e,
    0x94, 0xfb, 0x4f, 0xc2, 0x1f, 0xe7, 0x7e, 0x83, 0x10, 0xc0, 0x60, 0xf6, 0x1c, 0xaa, 0xff, 0x8a], rfl⟩

/-- The digest of the two bytes 01 70. -/
def zeroDigest : Digest :=
  ⟨[0xb6, 0xff, 0x45, 0xf1, 0xf8, 0x66, 0x9b, 0xa7, 0x8b, 0xed, 0x63, 0x59, 0x8c, 0x2d, 0xcf, 0x33,
    0xc2, 0x76, 0xbc, 0xdb, 0x6d, 0xf8, 0x69, 0xe3, 0x54, 0xfa, 0xf5, 0xaf, 0x23, 0x75, 0xf5, 0x00], rfl⟩

/-- A kernel image of these two bytes, no BIOS, and `{}` in the other files. -/
theorem not_checkBackup_accepts : ¬∀ (sha256 : List UInt8 → Digest)
    (readFile : Text → Option (List UInt8)) (f : BackupFiles), checkBackup sha256 readFile f
      (readBackupHash (processConfigHash (createBackup sha256 readFile f))) = true := by
  intro h
  have haccepted := h (fun bytes => if bytes = [0x01, 0x70] then zeroDigest else bracesDigest)
    (fun location => if location = [] then none
      else if location = "kernel".toList then some [0x01, 0x70] else some [0x7b, 0x7d])
    ⟨"qemu".toList, "fault".toList, "kernel".toList, []⟩
  exact absurd haccepted (by decide)

end Archie.Campaign
