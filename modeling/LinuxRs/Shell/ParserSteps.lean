/-
One round of each loop of the parser, by the token looked at.
-/
import LinuxRs.Shell.Parser

namespace LinuxRs.Shell

open LinuxRs.Lib

variable {A : Type}

@[simp] theorem cur_bind (f : Token → Parser A) (s : Toks) :
    (cur >>= f) s = f s.cur s := rfl

@[simp] theorem pure_run (a : A) (s : Toks) :
    (pure a : Parser A) s = .ok a s := rfl

def Token.endsSimple : Token → Bool
  | .ioNumber _ | .word _ => false
  | t => (redirOpFor t).isNone

def followsRedirs : Token → Bool
  | .ioNumber _ => false
  | t => (redirOpFor t).isNone

section

variable {c : Parser Cmd} {n : Nat} {s : SimpleCmd} {fd : Option Nat}
  {toks : Toks}

theorem simpleLoop_io {k : Nat} (h : toks.cur = .ioNumber k) :
    simpleLoop c (n + 1) s fd toks =
      (advance >>= fun _ => simpleLoop c n s (some k)) toks := by
  show (cur >>= _) toks = _
  rw [cur_bind, h]

theorem simpleLoop_func {w : Word} {toks' : Toks} {name : Text}
    (h : toks.cur = .word w) (hadv : advance toks = .ok () toks')
    (hname : funcName s w toks'.cur = some name) :
    simpleLoop c (n + 1) s fd toks = parseFuncDef c name toks' := by
  show (cur >>= _) toks = _
  rw [cur_bind, h]
  show (advance >>= _) toks = _
  rw [bind_of_ok hadv, cur_bind, hname]

theorem simpleLoop_assign {w : Word} {toks' : Toks} {a : Assignment}
    (h : toks.cur = .word w) (hadv : advance toks = .ok () toks')
    (hname : funcName s w toks'.cur = none)
    (hassign : leadingAssignment s w = some a) :
    simpleLoop c (n + 1) s fd toks =
      simpleLoop c n { s with assigns := s.assigns ++ [a] } fd toks' := by
  show (cur >>= _) toks = _
  rw [cur_bind, h]
  show (advance >>= _) toks = _
  rw [bind_of_ok hadv, cur_bind, hname, hassign]

theorem simpleLoop_word {w : Word} {toks' : Toks}
    (h : toks.cur = .word w) (hadv : advance toks = .ok () toks')
    (hname : funcName s w toks'.cur = none)
    (hassign : leadingAssignment s w = none) : simpleLoop c (n + 1) s fd toks =
      simpleLoop c n { s with words := s.words ++ [w] } fd toks' := by
  show (cur >>= _) toks = _
  rw [cur_bind, h]
  show (advance >>= _) toks = _
  rw [bind_of_ok hadv, cur_bind, hname, hassign]

theorem simpleLoop_redir {op : RedirOp} (h : redirOpFor toks.cur = some op) :
    simpleLoop c (n + 1) s fd toks = (parseRedir fd op >>= fun redir =>
        simpleLoop c n { s with redirs := s.redirs ++ [redir] } none) toks := by
  show (cur >>= _) toks = _
  rw [cur_bind]
  cases ht : toks.cur <;> rw [ht] at h <;> cases h <;> rfl

theorem simpleLoop_end (h : toks.cur.endsSimple = true) :
    simpleLoop c (n + 1) s fd toks = .ok (.simple s) toks := by
  show (cur >>= _) toks = _
  rw [cur_bind]
  cases ht : toks.cur <;> rw [ht] at h <;> first | rfl | cases h

theorem trailingLoop_io {k : Nat} (h : toks.cur = .ioNumber k) :
    trailingLoop (n + 1) fd toks =
      (advance >>= fun _ => trailingLoop n (some k)) toks := by
  show (cur >>= _) toks = _
  rw [cur_bind, h]

theorem trailingLoop_redir {op : RedirOp} (h : redirOpFor toks.cur = some op) :
    trailingLoop (n + 1) fd toks = (parseRedir fd op >>= fun redir =>
        trailingLoop n none >>= fun rest => pure (redir :: rest)) toks := by
  show (cur >>= _) toks = _
  rw [cur_bind]
  cases ht : toks.cur <;> rw [ht] at h <;> cases h <;> rfl

theorem trailingLoop_end (h : followsRedirs toks.cur = true) :
    trailingLoop (n + 1) fd toks = .ok [] toks := by
  show (cur >>= _) toks = _
  rw [cur_bind]
  cases ht : toks.cur <;> rw [ht] at h <;> first | rfl | cases h

end

end LinuxRs.Shell
