import LoxLang.Main
import LoxLang.Store.Detail
import LoxLang.Proofs.Token.Lossless
import LoxLang.Proofs.Grammar.Acceptance
import LoxLang.Proofs.Session.Renaming
import LoxLang.Proofs.Eval.Register
import LoxLang.Proofs.Scope.Verdicts
import LoxLang.Proofs.Scope.Addresses
import LoxLang.Proofs.Session.Joined
import LoxLang.Proofs.Session.Identities
import LoxLang.Proofs.Session.Layout
import LoxLang.Proofs.Session.Links
import LoxLang.Proofs.Session.Returns
import LoxLang.Proofs.Session.Initializers
import LoxLang.Proofs.Session.Frames
import LoxLang.Proofs.Session.Names
import LoxLang.Proofs.Session.Reports
import LoxLang.Proofs.Grammar.Independence
import LoxLang.Proofs.Store.Lookup
import LoxLang.Proofs.Session.Protocol
import LoxLang.Proofs.Session.Printed
import LoxLang.Proofs.Session.ForLoops
import LoxLang.Proofs.Token.Rendering
import LoxLang.Proofs.Session.Commands
import LoxLang.Proofs.Session.Dumps
import LoxLang.Proofs.Session.Numbers
