/-
Users do not write into each other's directories.

Everything a message changes in the tree is near the directory of its own user
(`serve_touches`): in it, or in a directory beside it whose name starts with the
user's token. Tokens are written with the same number of letters, so the directory
of another user is neither, and `serve_isolated` follows. It asks nothing of the user
map and nothing of the message.
-/

import MiniDropbox.Footprint
import MiniDropbox.UserLookup

namespace MiniDropbox

section Isolation

variable {libs : Externals} {t other : Token}

/-- What a message of one user may touch is not in the directory of another. -/
theorem Touches.elsewhere {place : Place} {node : Option Node} (touches : Touches libs t place node)
    (different : other ≠ t) : ¬ userPlace libs other <+: place := by
  intro inside
  obtain ⟨⟨x, along⟩, -⟩ := touches
  have way := List.prefix_of_prefix_length_le inside along (by simp [userPlace, storagePlace])
  have same : libs.uuidUnparse other = libs.uuidUnparse t ++ x := by
    simpa [userPlace, storagePlace] using way
  have bare : x = [] := by
    have lengths := congrArg List.length same
    rw [List.length_append, libs.length_uuidUnparse, libs.length_uuidUnparse] at lengths
    exact List.eq_nil_of_length_eq_zero (Nat.left_eq_add.mp lengths)
  rw [bare, List.append_nil] at same
  exact different (libs.uuidUnparse_injective same)

/-- Whatever message one user sends, nothing is created, overwritten or removed in the
directory of another, which is as it was. -/
theorem serve_isolated (libs : Externals) (server : Server) (ordinary : Ordinary server.fs) (r : Request)
    (other : Token) (different : other ≠ r.hdr.token) :
    Changes (fun place _ => ¬ userPlace libs other <+: place) server.fs (r.serve libs server).server.fs ∧
      ∀ place, userPlace libs other <+: place →
        (r.serve libs server).server.fs.get? place = server.fs.get? place := by
  have changes := @serve_touches libs server r ordinary
  constructor
  · exact changes.mono fun _ _ touches => touches.elsewhere different
  · intro place inside
    exact changes.frame fun _ touches => touches.elsewhere different inside

end Isolation

/-- A user registered next to another does not remove his directory by `../` and its name. -/
theorem serve_isolated_remove :
    let server := runState libraries (boot [] []) [request .authReq collidingTokens[0] [] [],
      request .authReq collidingTokens[1] [] []]
    let r := request .removeReq collidingTokens[1]
      (cstr "../" ++ libraries.uuidUnparse collidingTokens[0] ++ [0]) []
    (r.serve libraries server).server.fs.get? (userPlace libraries collidingTokens[0]) =
      server.fs.get? (userPlace libraries collidingTokens[0]) :=
  (serve_isolated libraries _ (ordinary_runState (ordinary_boot [] [])) _ _ (by decide)).2 _ List.prefix_rfl

end MiniDropbox
