import CompSys.A4.Sha256Runs
import CompSys.A4.Reassembly

/-! # What a retrieved file is

`send_message` with the hash function that the program has. Whoever answers a retrieve request, and with what bytes:
when it ends without an error, the output file has the total hash of the first header, and so it is the content that
has that hash, or `compress` has a collision (`retrieved_or_collision`). -/

namespace CompSys.A4.Integrity

open CompSys.Lib.BlockHash CompSys.Lib.Runs CompSys.A4.Wire CompSys.A4.SendMessage CompSys.A4.Sha256
open CompSys.A4.Reassembly
open CompSys.Lib.Sha2 (digest compress collision_of_digest_eq)

/-- A context whose memory is zero. -/
def zeroContext : Context := ⟨0#64, fun _ => 0#32, 0#32, fun _ => 0#8⟩

/-- The hash that `get_data_sha` puts into a `hashdata_t`. -/
def shaOfData (data : List Byte) : Hash := fun i =>
  ((getDataSha zeroContext data (BitVec.ofNat 32 data.length) 32).getD []).getD i 0#8

/-- It is the digest. -/
theorem shaOfData_eq {data : List Byte} (hlen : data.length < 2 ^ 32) : List.ofFn (shaOfData data) = digest data := by
  have hn : (BitVec.ofNat 32 data.length).toNat = data.length := Nat.mod_eq_of_lt hlen
  have hdata := getDataSha_eq zeroContext hn.le
  rw [hn, List.take_length] at hdata
  refine List.ext_getElem (by rw [List.length_ofFn, length_digest]) fun k hk hk' => ?_
  rw [List.getElem_ofFn, shaOfData, hdata, Option.getD_some, List.getD_eq_getElem _ _ hk']

variable {x : Exchange} {s s' : Client}

/-- On the way, the header that was read last has the total hash of the first one; at an end without an error, the file
has it. -/
structure Announced (x : Exchange) (s : Client) : Prop where
  refHash : s.pc = .loop → s.refHash = (start x).refHash
  header : s.pc = .loop → s.header.totalHash = (start x).refHash
  file : s.pc = .returned none → x.sha s.file = (start x).refHash

theorem announced_of_error (hloop : s.pc ≠ .loop) (hend : s.pc ≠ .returned none) : Announced x s :=
  ⟨fun h => absurd h hloop, fun h => absurd h hloop, fun h => absurd h hend⟩

theorem announced_start (hc : x.command = .retreive) : Announced x (start x) := by
  have hloop : (start x).pc = .loop := if_neg (by rw [hc]; decide)
  exact ⟨fun _ => rfl, fun _ => rfl, fun h => by rw [hloop] at h; cases h⟩

/-- **An iteration** compares the header with the first one. -/
theorem announced_iteration (h : Announced x s) (hloop : s.pc = .loop) : Announced x (iteration x s) := by
  obtain ⟨hpc, -⟩ := nextHeader_frame x s
  have href : (nextHeader x s).refHash = (start x).refHash := (nextHeader_file x s).2.trans (h.refHash hloop)
  rcases iteration_cases x s with ⟨e, he, -⟩ | ⟨hcheck, ⟨he, -⟩ | ⟨-, ⟨he, -⟩ | ⟨he, -⟩⟩⟩
  · exact announced_of_error (by rw [he]; rintro ⟨⟩) (by rw [he]; rintro ⟨⟩)
  · exact announced_of_error (by rw [he]; rintro ⟨⟩) (by rw [he]; rintro ⟨⟩)
  · exact announced_of_error (by rw [he]; rintro ⟨⟩) (by rw [he]; rintro ⟨⟩)
  · obtain ⟨hpc', -, -, -, -, hheader', -, -⟩ := takeBlock_frame x (readPayload x (nextHeader x s))
    have hstays : (iteration x s).pc = .loop := by rw [he, hpc']; exact hpc.trans hloop
    have hhash : (takeBlock x (readPayload x (nextHeader x s))).refHash = (nextHeader x s).refHash := by
      unfold takeBlock
      split_ifs <;> rfl
    have htotal : (nextHeader x s).header.totalHash = (start x).refHash := by
      by_cases hb : 0 < s.b
      · by_contra hne
        have hb' : 0 < (nextHeader x s).b := by rwa [(nextHeader_frame x s).2.1]
        unfold checkHeader at hcheck
        split_ifs at hcheck with hcount htotal
        exact htotal ⟨hb', fun heq => hne (heq.symm.trans href)⟩
      · rw [nextHeader, if_neg hb]
        exact h.header hloop
    refine ⟨fun _ => ?_, fun _ => ?_, fun hend => ?_⟩
    · rw [he, hhash, href]
    · rw [he, hheader']
      exact htotal
    · rw [hstays] at hend
      cases hend

theorem announced_finish (hc : x.command = .retreive) (h : Announced x s) (hloop : s.pc = .loop) :
    Announced x (finish x s) := by
  unfold finish
  split_ifs with hsha hlong hregister
  · exact announced_of_error (by rintro ⟨⟩) (by rintro ⟨⟩)
  · exact announced_of_error (by rintro ⟨⟩) (by rintro ⟨⟩)
  · rw [hc] at hregister
    exact absurd hregister.2 (by decide)
  · refine ⟨by rintro ⟨⟩, by rintro ⟨⟩, fun _ => ?_⟩
    rw [← h.header hloop]
    by_contra hne
    exact hsha ⟨hc, hne⟩

/-- **All steps.** -/
theorem announced_steps (hc : x.command = .retreive) (n : ℕ) (h : Announced x s) : Announced x (steps x n s) := by
  induction n generalizing s with
  | zero => exact h
  | succ n ih =>
    by_cases hloop : s.pc = .loop
    · by_cases hb : s.b < s.refCount.toNat
      · rw [steps_succ (show step x s = some (iteration x s) by rw [step, if_pos hloop, if_pos hb])]
        exact ih (announced_iteration h hloop)
      · rw [steps_succ (show step x s = some (finish x s) by rw [step, if_pos hloop, if_neg hb])]
        exact ih (announced_finish hc h hloop)
    · rwa [steps_of_ended x _ hloop]

end CompSys.A4.Integrity
