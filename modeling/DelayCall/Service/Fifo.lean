import DelayCall.Model.Chan
import Mathlib.Logic.Relation

/-!
# The service the program offers

What the dispatcher is for, stated without goroutines, locks or channels: a
per-key FIFO server.  Requests arrive in one stream, and at any moment the
oldest request of some key that has not been served yet may be served.  So
the requests of one key are served one at a time in arrival order, and those
of different keys in any interleaving.

`Service.Fifo` is the invariant of this machine; `Invariants.Order` shows
that the program refines it.
-/

namespace DelayCall

/-- The requests of a list on key `K`, in order. -/
def keyed (l : List Request) (K : String) : List Request :=
  l.filter fun r => r.uid == K

@[simp] theorem keyed_nil (K : String) : keyed [] K = [] := rfl

@[simp] theorem keyed_append (l l' : List Request) (K : String) :
    keyed (l ++ l') K = keyed l K ++ keyed l' K := List.filter_append _ _

theorem keyed_singleton (r : Request) (K : String) :
    keyed [r] K = if r.uid = K then [r] else [] := by
  by_cases h : r.uid = K <;> simp [keyed, h]

/-- The requests that have arrived and those served, each in order. -/
structure Service where
  arrived : List Request
  served : List Request

namespace Service

def start : Service := ⟨[], []⟩

/-- The requests of key `K` not served yet, oldest first. -/
def pending (a : Service) (K : String) : List Request :=
  (keyed a.arrived K).drop (keyed a.served K).length

inductive Step : Service -> Service -> Prop where
  | arrive (a : Service) (r : Request) : Step a ⟨a.arrived ++ [r], a.served⟩
  | serve (a : Service) (r : Request) (rest : List Request) :
      a.pending r.uid = r :: rest -> Step a ⟨a.arrived, a.served ++ [r]⟩

/-- On every key, the served requests followed by the pending ones are the
arrived ones. -/
def Fifo (a : Service) : Prop :=
  forall K, keyed a.served K ++ a.pending K = keyed a.arrived K

namespace Fifo

variable {a a' : Service}

theorem step (h : a.Fifo) (ht : Step a a') : a'.Fifo := by
  cases ht with
  | arrive r =>
      intro K
      have hle : (keyed a.served K).length ≤ (keyed a.arrived K).length := by
        rw [← h K, List.length_append]
        omega
      simp only [pending, keyed_append]
      rw [List.drop_append_of_le_length hle, ← List.append_assoc]
      exact congrArg (· ++ keyed [r] K) (h K)
  | serve r rest hp =>
      intro K
      by_cases hK : r.uid = K
      · subst hK
        have harr : keyed a.arrived r.uid = (keyed a.served r.uid ++ [r]) ++ rest := by
          rw [← h r.uid, hp, List.append_assoc, List.singleton_append]
        simp only [pending, keyed_append, keyed_singleton, eq_self_iff_true, if_true, harr]
        rw [List.drop_left]
      · simpa [pending, keyed_singleton, hK] using h K

theorem of_reach (h : Relation.ReflTransGen Step start a) : a.Fifo := by
  induction h with
  | refl => intro K; rfl
  | tail _ ht ih => exact ih.step ht

theorem served_are_oldest (h : a.Fifo) (K : String) : keyed a.served K <+: keyed a.arrived K :=
  ⟨_, h K⟩

end Fifo

end Service

end DelayCall
