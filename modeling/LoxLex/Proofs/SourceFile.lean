import LoxLex.CommandLine.Script
import LoxLex.Proofs.Text.Utf8.Decode

/-!
# Reading source files

A file is a source text exactly if its bytes are those of a text, and then it is that text, to the
last character (`load_exact`). Other files are refused with the fault that describes their bytes,
by the library and by the command line alike.
-/

namespace LoxLex

open CommandLine (scanScript scanSource loadFailure)

variable {files : FileTree} {path : Text}

theorem load_of_read {bytes : Utf8.Bytes} (hnul : '\x00' ∉ path)
    (h : files.read path = .ok bytes) :
    load files path = (Utf8.decode bytes).mapError .undecodable := by
  simp only [load, loadWith, if_neg hnul, h]

theorem load_of_unreadable {e : AccessError} (hnul : '\x00' ∉ path)
    (h : files.read path = .error e) : load files path = .error (.unreadable e) := by
  simp only [load, loadWith, if_neg hnul, h]

theorem load_eq_ok_iff {bytes : Utf8.Bytes} {s : Text} (hnul : '\x00' ∉ path)
    (h : files.read path = .ok bytes) : load files path = .ok s ↔ Utf8.encode s = bytes := by
  rw [load_of_read hnul h, ← Utf8.decode_eq_ok_iff]
  cases Utf8.decode bytes with
  | ok t => simp [Except.mapError]
  | error f => exact ⟨nofun, nofun⟩

theorem scanFile_of_load {s : Text} (h : load files path = .ok s) :
    scanFile files path = (scanStrict s).mapError .lexical := by
  rw [scanFile, h]
  rfl

theorem scanFile_of_load_error {e : LoadError} (h : load files path = .error e) :
    scanFile files path = .error (.load e) := by
  rw [scanFile, h]
  rfl

theorem load_of_decode_error {bytes : Utf8.Bytes} {f : Utf8.Fault} (hnul : '\x00' ∉ path)
    (h : files.read path = .ok bytes) (hf : Utf8.decode bytes = .error f) :
    load files path = .error (.undecodable f) := by
  rw [load_of_read hnul h, hf]
  rfl

open Utf8 (encode sequence least) in
/-- What is read of a file with the bytes `b`. In the last part `n` is written with `k` bytes behind
the lead byte, and is a surrogate, above all code points, or to be written with fewer bytes. -/
theorem load_exact {b : Utf8.Bytes} (hnul : '\x00' ∉ path) (hread : files.read path = .ok b) :
    (∀ s, load files path = .ok s ↔ encode s = b) ∧
    (∀ s, encode s = b → scanFile files path = (scanStrict s).mapError .lexical ∧
      ∀ count, scanScript count path (load files path) = scanSource count s) ∧
    ((∀ s, encode s ≠ b) → ∃ f : Utf8.Fault, f.Describes b ∧
      load files path = .error (.undecodable f) ∧
      scanFile files path = .error (.load (.undecodable f)) ∧
      ∀ count, scanScript count path (load files path) = loadFailure path (.undecodable f)) ∧
    ∀ s k n rest, b = encode s ++ (sequence k n ++ rest) → k ≤ 3 → n < least (k + 1) →
      (n < least k ∨ 0xD800 ≤ n ∧ n ≤ 0xDFFF ∨ 0x10FFFF < n) →
      ∃ f : Utf8.Fault, f.Describes b ∧ load files path = .error (.undecodable f) ∧
        f.start = (encode s).length := by
  have hload (s) : load files path = .ok s ↔ encode s = b := load_eq_ok_iff hnul hread
  refine ⟨hload, fun s hs => ?_, fun hne => ?_, fun s k n rest hb hk hn hbad => ?_⟩
  · rw [(hload s).mpr hs]
    exact ⟨scanFile_of_load ((hload s).mpr hs), fun _ => rfl⟩
  · obtain ⟨f, hf, hdescribes⟩ := Utf8.exists_of_not_wellFormed fun ⟨s, hs⟩ => hne s hs
    have hfault := load_of_decode_error hnul hread hf
    rw [hfault]
    exact ⟨f, hdescribes, rfl, scanFile_of_load_error hfault, fun _ => rfl⟩
  · have hbad' : n < least k ∨ ¬n.isValidChar := by
      unfold Nat.isValidChar
      omega
    obtain ⟨f, hf, hdescribes, hstart⟩ := Utf8.decode_sequence_eq_error hk hn hbad' s rest
    rw [← hb] at hf hdescribes
    exact ⟨f, hdescribes, load_of_decode_error hnul hread hf, hstart⟩

/-- A file that keeps its byte order mark, its carriage returns and its NUL, and one whose second
character is a surrogate. -/
theorem load_exact_marked :
    let text : Utf8.Bytes := [0xEF, 0xBB, 0xBF, 0x0D, 0x0A, 0x00, 0x0D]
    let broken : Utf8.Bytes := [0x0A] ++ [0xED, 0xA0, 0x80, 0x0A]
    let files := (FileTree.add {} ['a'] (.file text)).add ['b'] (.file broken)
    files.read ['a'] = .ok text ∧ load files ['a'] = .ok ['\uFEFF', '\r', '\n', '\x00', '\r'] ∧
      files.read ['b'] = .ok broken ∧ ∃ f : Utf8.Fault, f.Describes broken ∧
        load files ['b'] = .error (.undecodable f) ∧ f.start = 1 := by
  intro text broken files
  have ha : files.read ['a'] = .ok text := by decide +kernel
  have hb : files.read ['b'] = .ok broken := by decide +kernel
  obtain ⟨hload, -⟩ := load_exact (by decide) ha
  obtain ⟨-, -, -, hbad⟩ := load_exact (by decide) hb
  obtain ⟨f, hdescribes, hf, hstart⟩ :=
    hbad ['\n'] 2 0xD800 [0x0A] (by decide +kernel) (by decide) (by decide) (by decide)
  exact ⟨ha, (hload _).mpr (by decide +kernel), hb, f, hdescribes, hf, hstart⟩

end LoxLex
