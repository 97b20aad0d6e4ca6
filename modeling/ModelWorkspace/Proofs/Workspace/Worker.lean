import ModelWorkspace.Proofs.Document.Transfer
import ModelWorkspace.Workspace.Worker

/-!
# Parsing apart

What a worker hands back of a file is the document that parsing in place gives, because
documents survive their transfer (`receive_serve`).  Replies come in as the threads are done
with them, and are put into the order of the files; so a batch comes back as if its files
had been parsed in place one after the other, whatever the number of threads
(`parseBatch_eq`).
-/

namespace ModelWorkspace
namespace ParseWorker

/-- What parsing in place gives for a job. -/
def inPlace (job : ParseJob) : Location × Option Document :=
  (job.location, Document.ofTextUnless job.cancelled job.text)

theorem receive_serve {job : ParseJob} (h : byteWidth job.text.toList ≤ Transfer.maxOffset) :
    receive job.location (serve job) = .ok (inPlace job) := by
  unfold serve inPlace Document.ofTextUnless
  split
  · rfl
  · show receive job.location (some _) = _
    unfold receive
    dsimp only
    rw [Document.rehydrate_dehydrate (Document.isPortable_ofText h)]

theorem mapM_receive_serve {jobs : List ParseJob}
    (h : ∀ job ∈ jobs, byteWidth job.text.toList ≤ Transfer.maxOffset) :
    (jobs.mapM fun job => receive job.location (serve job)) = .ok (jobs.map inPlace) := by
  induction jobs with
  | nil => rfl
  | cons job rest ih =>
      obtain ⟨hjob, hrest⟩ := List.forall_mem_cons.mp h
      rw [List.mapM_cons, receive_serve hjob, ih hrest]
      rfl

/-- In whatever order the jobs of some files are served, and by however many threads, their
documents come back in the order of the files, and are those that parsing in place gives. -/
theorem parseBatch_eq (threads : Nat) {jobs served : List ParseJob}
    (hsorted : jobs.Pairwise fun a b => a.location < b.location) (hserved : served.Perm jobs)
    (h : ∀ job ∈ jobs, byteWidth job.text.toList ≤ Transfer.maxOffset) :
    (spawn threads).parseBatch served = .ok (jobs.map inPlace) := by
  let le : Location × Option Document → Location × Option Document → Bool :=
    fun a b => decide (¬ b.1 < a.1)
  have hle : ∀ a b, le a b = true ↔ a.1.path ≤ b.1.path :=
    fun _ _ => decide_eq_true_iff.trans String.not_lt
  have hinjective : ∀ a ∈ jobs, ∀ b ∈ jobs, a.location = b.location → a = b := by
    refine fun a ha b hb => List.inj_on_of_nodup_map (List.pairwise_map.mpr ?_) ha hb
    refine hsorted.imp fun hlt heq => ?_
    exact Location.lt_irrefl _ (heq ▸ hlt)
  have hreplies : (served.map inPlace).mergeSort le = jobs.map inPlace := by
    have hperm : ((served.map inPlace).mergeSort le).Perm (jobs.map inPlace) :=
      (List.mergeSort_perm _ _).trans (hserved.map _)
    refine @List.Perm.eq_of_pairwise _ (fun a b => le a b = true) _ _ ?_ ?_ ?_ hperm
    · -- no two files have the same location, so the order is strict
      intro a b ha hb hab hba
      obtain ⟨j, hj, rfl⟩ := List.mem_map.mp (hperm.mem_iff.mp ha)
      obtain ⟨k, hk, rfl⟩ := List.mem_map.mp hb
      have hpath := String.le_antisymm ((hle _ _).mp hab) ((hle _ _).mp hba)
      rw [hinjective j hj k hk (Location.ext_path hpath)]
    · refine List.pairwise_mergeSort (fun a b c hab hbc => ?_) (fun a b => ?_) _
      · exact (hle a c).mpr (String.le_trans ((hle a b).mp hab) ((hle b c).mp hbc))
      · rw [Bool.or_eq_true, hle, hle]
        exact String.le_total _ _
    · refine List.pairwise_map.mpr (hsorted.imp fun hlt => (hle _ _).mpr (String.not_lt.mp ?_))
      exact fun hback => Location.lt_irrefl _ (Location.lt_trans hlt hback)
  have hthreads : (spawn threads).threads ≠ 0 := by
    show max 1 threads ≠ 0
    omega
  unfold parseBatch
  rw [if_neg hthreads, mapM_receive_serve fun job hjob => h job (hserved.mem_iff.mp hjob)]
  exact congrArg Except.ok hreplies

end ParseWorker
end ModelWorkspace
