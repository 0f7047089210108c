-- The count that vkcprintf returns: for every sink it is the number of the
-- characters that the sink is given, and these do not depend on the sink.
import Salsola.KprintfBuffer

open scanner

namespace salsola.kprintf

variable {σ : Type} {around : Int → UInt8} {fmt : Str} {args : List Arg}

/-- A call that returns has given its sink some text, character by character. Every other sink is
given the same text by the same call, which returns the same count, and below 2^31 characters the
count is their number. So `ksnprintf` with a buffer that is large enough leaves the text there. -/
theorem the_count_is_that_of_the_text (write : σ → UInt8 → σ) (ctx : σ) (n : Int) (e : Env σ)
    (h : vkcprintf write around fmt { ctx, args, reads := [] } = .ok n e) :
    ∃ text : Str, e.ctx = text.foldl write ctx ∧
      (text.length < 2 ^ 31 → n = text.length) ∧
      (∀ (τ : Type) (write' : τ → UInt8 → τ) (ctx' : τ),
        vkcprintf write' around fmt { ctx := ctx', args, reads := [] } = .ok n {
          ctx := text.foldl write' ctx'
          args := e.args
          reads := e.reads }) ∧
      ∀ (behind buffer : Nat → UInt8) (size : UInt64), text.length < size.toNat →
        size.toNat < 2 ^ 31 → ∃ ctx' : SnContext,
          ksnprintf around behind buffer size fmt args = .ok n {
            ctx := ctx'
            args := e.args
            reads := e.reads } ∧
          (∀ i, i < text.length → ctx'.buffer i = text.getD i 0) ∧
          (text ≠ [] → ctx'.buffer text.length = 0) := by
  rw [vkcprintf_writer] at h
  cases hlog : printed around fmt args with
  | error trap e1 =>
    rw [hlog] at h
    cases h
  | ok n1 e1 =>
    rw [hlog] at h
    cases h
    refine ⟨e1.ctx, rfl, ?_, ?_, ?_⟩
    · intro hlen
      rw [id, printed_count hlog, to_int_length.mpr hlen]
    · intro τ write' ctx'
      rw [vkcprintf_writer, hlog]
      rfl
    · intro behind buffer size hfits hsize
      have hcut : cut size = (size.toNat : Int) := by
        unfold cut
        exact to_int_length.mpr hsize
      have hfilled := filled_foldl buffer hsize behind e1.ctx
      have hmin : min e1.ctx.length size.toNat = e1.ctx.length := Nat.min_eq_left (by omega)
      refine ⟨e1.ctx.foldl (sn_write behind) (sn_start buffer size.toNat), ?_, ?_, ?_⟩
      · rw [ksnprintf_eq behind buffer size hlog, hcut, ← printed_count hlog]
        rfl
      · intro i hi
        exact hfilled.copied i (by omega)
      · intro hne
        have hended := hfilled.ended hne
        rw [hmin] at hended
        exact hended

theorem the_count_is_that_of_padded_numbers : ∃ (e : Env Str) (text : Str),
    vkcprintf log (fun _ => 0) padded_format { ctx := [], args := padded_args, reads := [] } =
      .ok 10 e ∧ e.ctx = text.foldl log [] ∧
    (text.length < 2 ^ 31 → (10 : Int) = text.length) ∧
    (∀ (τ : Type) (write' : τ → UInt8 → τ) (ctx' : τ),
      vkcprintf write' (fun _ => 0) padded_format
        { ctx := ctx', args := padded_args, reads := [] } = .ok 10 {
          ctx := text.foldl write' ctx'
          args := e.args
          reads := e.reads }) ∧
    (text.length < 11 → ∃ ctx' : SnContext,
      ksnprintf (fun _ => 0) (fun _ => 0) (fun _ => 7) 11 padded_format padded_args = .ok 10 {
        ctx := ctx'
        args := e.args
        reads := e.reads } ∧
      (∀ i, i < text.length → ctx'.buffer i = text.getD i 0) ∧
      (text ≠ [] → ctx'.buffer text.length = 0)) := by
  obtain ⟨e, hrun, -⟩ := padded_output
  obtain ⟨text, htext, hcount, hsinks, hbuffer⟩ := the_count_is_that_of_the_text log [] 10 e hrun
  exact ⟨e, text, hrun, htext, hcount, hsinks,
    fun hlen => hbuffer (fun _ => 0) (fun _ => 7) 11 hlen (by decide)⟩

end salsola.kprintf
