import CryptoPrimitives.Proofs.Csprng.Coupling
import CryptoPrimitives.Proofs.Drbg.Calls

/-!
# Generators that keep a record

A generator beside all calls made of it, with its answers, oldest first. A manager over it does what
it does over the generator itself.
-/

set_option autoImplicit false

namespace CryptoPrimitives

structure Overheard (δ : Type) where
  drbg : δ
  heard : Transcript

namespace Overheard

variable {δ : Type} [Drbg δ]

def hear (d : Overheard δ) (call : DrbgCall) : Except Fault Bytes × Overheard δ :=
  ((Drbg.answer d.drbg call).1,
    ⟨(Drbg.answer d.drbg call).2, d.heard ++ [(call, (Drbg.answer d.drbg call).1)]⟩)

instance : Drbg (Overheard δ) where
  reseed d entropy additional :=
    ((Drbg.reseed d.drbg entropy additional).1, (d.hear (.reseed entropy additional)).2)
  generate d length additional := d.hear (.generate length additional)
  maxRequestSize d := Drbg.maxRequestSize d.drbg
  done d := { d with drbg := Drbg.done d.drbg }

theorem generate_run {d d' : Overheard δ} {length : Nat} {additional : Option Bytes}
    {answer : Except Fault Bytes} (h : Drbg.generate d length additional = (answer, d')) :
    Drbg.generate d.drbg length additional = (answer, d'.drbg) ∧
      d'.heard = d.heard ++ [(.generate length additional, answer)] := by
  cases h
  exact ⟨rfl, rfl⟩

theorem reseed_run {d d' : Overheard δ} {entropy : Bytes} {additional : Option Bytes}
    {answer : Except Fault Unit} (h : Drbg.reseed d entropy additional = (answer, d')) :
    Drbg.reseed d.drbg entropy additional = (answer, d'.drbg) ∧
      d'.heard = d.heard ++ [(.reseed entropy additional, answer.map fun _ => [])] := by
  cases h
  exact ⟨rfl, rfl⟩

theorem matched : Drbg.Matched fun (d : Overheard δ) d' => d.drbg = d' where
  reseed := by
    rintro d d' seed additional rfl
    exact ⟨rfl, rfl⟩
  generate := by
    rintro d d' length rfl
    exact ⟨rfl, rfl⟩
  done := by
    rintro d d' rfl
    rfl

end Overheard

namespace Csprng

open CryptoPrimitives.Action

variable {δ ε π : Type}

def plain (g : Csprng (Overheard δ) ε π) : Csprng δ ε π := { g with drbg := g.drbg.drbg }

def overheard (g : Csprng δ ε π) : Csprng (Overheard δ) ε π := { g with drbg := ⟨g.drbg, []⟩ }

abbrev Heard {α : Type} (y : Act (Overheard δ) ε π α) (x : Act δ ε π α) : Prop :=
  Simulates plain y x

variable [Drbg δ] [EntropySource ε] [Policy π]

theorem heard_lawful : (Ties.images Overheard.drbg id id : Ties (Overheard δ) δ ε ε π π).Lawful :=
  ⟨Overheard.matched, EntropySource.matched_id, Policy.matched_id⟩

theorem refreshIfDue_heard :
    Heard (refreshIfDue (δ := Overheard δ) (ε := ε) (π := π)) refreshIfDue :=
  (refreshIfDue_coupled heard_lawful).simulates

theorem pass_heard (wanted : Nat) :
    Heard (pass (δ := Overheard δ) (ε := ε) (π := π) wanted) (pass wanted) :=
  (pass_coupled heard_lawful wanted).simulates

theorem run_heard (ops : List Locked) (g : Csprng (Overheard δ) ε π) :
    (run ops g).1 = (run ops g.plain).1 ∧ (run ops g).2.plain = (run ops g.plain).2 :=
  run_image heard_lawful ops g

theorem passes_heard (rounds wanted : Nat) :
    Heard (passes (δ := Overheard δ) (ε := ε) (π := π) rounds wanted) (passes rounds wanted) :=
  (passes_coupled heard_lawful rounds wanted).simulates

end Csprng

end CryptoPrimitives
